import Aesd.Proofs.Joins
import Aesd.Proofs.Moment

namespace Aesd.Proofs
open Base Driver Server

section Pool
variable {σ : Type} {sys : Sys σ} {limit : Nat}

/-- What stays true of the threads. To them the server does three things: it lets them take
their steps, it starts each of them once, and it writes to their flags. -/
structure Lasting (sys : Sys σ) (limit : Nat)
    (P : (Nat → Bool) → System Nat Nat (Shared σ) Fault → Prop) : Prop where
  worker : ∀ {started pool e pool'}, P started pool → e.kind ≠ .invoke →
    System.Step (dataProcessor sys.shared limit) pool e pool' → P started pool'
  launch : ∀ {started pool i}, P started pool → started i = false → pool.tasks i = none →
    P (Function.update started i true)
      (pool.goto i (some ⟨i, dataProcessor sys.shared limit i⟩))
  flags : ∀ {started pool} (f : Nat → Nat), P started pool →
    P started { pool with mem := { pool.mem with threadComplete := f } }

theorem Lasting.of_runs {P : (Nat → Bool) → System Nat Nat (Shared σ) Fault → Prop}
    (hP : Lasting sys limit P) {Ok : Process σ → Process σ → Prop} {inner : σ}
    {flags : Nat → Nat} {s : Process σ}
    (hstart : P (fun _ => false) (.start ⟨inner, flags, []⟩))
    (hrun : Process.Runs (dataProcessor sys.shared limit) Ok (.start ⟨inner, flags, []⟩) s) :
    P s.started s.pool := by
  induction hrun with
  | refl => exact hstart
  | @step s s' hs _ h ih =>
    cases h with
    | signal => exact ih
    | worker _ hkind h => exact hP.worker ih hkind h
    | main h =>
      cases h with
      | @create i hpc =>
        obtain ⟨stage, hc, _⟩ := crew_flags_of_runs hs
        have hnot : s.started i = false := by
          apply hc.early
          rw [hpc]
          exact Or.inr rfl
        exact hP.launch ih hnot (hc.unstarted i hnot).1
      | @add i | @clear i => exact hP.flags _ ih
      | @close i | @lastClose i =>
        obtain ⟨_, _, hclose⟩ := s.closeSocket_eq i
        rw [hclose]
        exact ih
      | stop | listen | again | refuse | accept | noMemory | noThread | first | search | link
      | further | astray | swept | ready | busy | joined | passed | lastReady | lastBusy
      | lastJoined | keep | follow | drop => exact ih

end Pool

section Files
variable {limit i : Nat} {place place' : Place} {m m' : Shared World}

/-- The moves of a session that are no system calls: it takes the lock, gives it back,
or stays where it is. -/
inductive Still : Place → Place → Prop
  | stay {place : Place} : Still place place
  | enter {fd : Fd} : Still (.outside fd) (.inside fd)
  | leave {fd : Fd} : Still (.inside fd) (.outside fd)
  | answer {fd : Fd} : Still (.sought fd) (.replying true fd)

theorem act_or_still {e : Event Nat Nat} (hkind : e.kind ≠ .invoke) (hcall : e.call = i)
    (h : System.Moves (course World.sys.shared) (fun place => ∃ seek, place = .finished seek)
      .start e place m place' m') :
    (e.kind = .act ∧ Act World.sys.shared i place m place' m') ∨
      (e.kind ≠ .act ∧ m' = m ∧ Still place place') := by
  subst hcall
  unfold System.Moves at h
  cases hk : e.kind with
  | invoke => exact absurd hk hkind
  | acquire =>
    simp only [hk] at h
    obtain ⟨⟨fd, rfl, rfl⟩, hm⟩ := h
    exact Or.inr ⟨by simp, hm, .enter⟩
  | interrupt =>
    simp only [hk] at h
    obtain ⟨rfl, hm⟩ := h
    exact Or.inr ⟨by simp, hm, .stay⟩
  | unlock =>
    simp only [hk] at h
    obtain ⟨⟨fd, ⟨rfl, rfl⟩ | ⟨rfl, rfl⟩⟩, hm⟩ := h
    · exact Or.inr ⟨by simp, hm, .leave⟩
    · exact Or.inr ⟨by simp, hm, .answer⟩
  | act =>
    simp only [hk] at h
    exact Or.inl ⟨rfl, h⟩
  | finish =>
    simp only [hk] at h
    obtain ⟨_, rfl, hm⟩ := h
    exact Or.inr ⟨by simp, hm, .stay⟩

/-- The file of a session that comes to a place. One that crashes does not close it. -/
def fileAt (fd : Fd) : Place → Fd
  | .crashed => fd
  | place => openFile place

theorem fileAt_still (h : Still place place') {fd : Fd}
    (hfd : fd = openFile place ∨ place = .crashed) :
    fileAt fd place' = fd ∧ (fd = openFile place' ∨ place' = .crashed) := by
  cases h with
  | stay =>
    refine ⟨?_, hfd⟩
    cases place with
    | crashed => rfl
    | start | outside | inside | sought | between | replying | pending | replied | marked
    | finished => exact (hfd.resolve_right (by simp)).symm
  | enter | leave | answer =>
    obtain rfl := hfd.resolve_right (by simp)
    exact ⟨rfl, Or.inl rfl⟩

theorem fileAt_afterRead {seek : Bool} {fd : Fd} {r : Except Fault (Result (Nat × List UInt8))}
    (h : AfterRead seek fd r place) : fileAt fd place = fd := by
  cases h <;> rfl

theorem fileAt_afterSend (seek : Bool) (fd : Fd) (bytes : List UInt8)
    (r : Except Fault (Result Nat)) : fileAt fd (afterSend seek fd bytes r) = fd := by
  unfold afterSend
  split <;> rfl

/-- A call through `fd` that opens and closes nothing. -/
theorem open_iff_of_same {fd : Fd} {w w' : World}
    (hothers : ∀ n, fd ≠ some n → w'.position n = w.position n)
    (hown : ∀ n, fd = some n → w'.position n ≠ none) (n : Nat) :
    w'.position n ≠ none ↔ (w.position n ≠ none ∧ fd ≠ some n) ∨ fd = some n := by
  by_cases hn : fd = some n
  · simpa [hn] using hown n hn
  · simp [hn, hothers n hn]

theorem open_iff_of_close (fd : Fd) (w : World) (n : Nat) :
    (World.sys.closeDevice fd w).2.position n ≠ none ↔ w.position n ≠ none ∧ fd ≠ some n := by
  cases fd with
  | none => simp [World.sys, World.closeDevice]
  | some m =>
    by_cases hn : n = m
    · subst hn
      simp [World.sys, World.closeDevice]
    · simp [World.sys, World.closeDevice, hn, Ne.symm hn]

/-- Which files are open after a call: those of the others, and the one that the
session has now. -/
theorem act_open_iff (h : Act World.sys.shared i place m place' m')
    (hopen : ∀ n, openFile place = some n → m.inner.position n ≠ none) (n : Nat) :
    m'.inner.position n ≠ none ↔ (m.inner.position n ≠ none ∧ openFile place ≠ some n) ∨
      fileAt (openFile place) place' = some n := by
  cases h with
  | openFirst | openLast =>
    change Function.update m.inner.position m.inner.nextFd (some 0) n ≠ none ↔
      (m.inner.position n ≠ none ∧ none ≠ some n) ∨ some m.inner.nextFd = some n
    by_cases hn : n = m.inner.nextFd
    · subst hn
      simp
    · simp [Function.update_of_ne hn, Ne.symm hn]
  | @recv _ fd =>
    have hthrough := through_recv fd i m.inner
    exact open_iff_of_same hthrough.position (fun n hn => hthrough.stays n (hopen n hn)) n
  | @ioctl _ fd c o =>
    have hthrough := through_ioctl fd c o m.inner
    exact open_iff_of_same hthrough.position (fun n hn => hthrough.stays n (hopen n hn)) n
  | @write _ fd bytes =>
    have hthrough := through_write fd bytes m.inner
    have hiff := open_iff_of_same hthrough.position (fun n hn => hthrough.stays n (hopen n hn)) n
    split <;> exact hiff
  | @read _ seek fd _ h =>
    have hthrough := through_read fd READ_WRITE_SIZE m.inner
    change _ ↔ _ ∨ fileAt fd place' = some n
    rw [fileAt_afterRead h]
    exact open_iff_of_same hthrough.position (fun n hn => hthrough.stays n (hopen n hn)) n
  | @send _ seek fd bytes =>
    change _ ↔ _ ∨ fileAt fd (afterSend seek fd bytes _) = some n
    rw [fileAt_afterSend]
    exact open_iff_of_same (fun _ _ => rfl) hopen n
  | complete => exact open_iff_of_same (fun _ _ => rfl) hopen n
  | @closeFirst _ fd | @closeLast _ fd | @closeSought _ fd =>
    apply (open_iff_of_close fd m.inner n).trans
    exact (or_iff_left (by simp [fileAt, openFile])).symm

end Files

/-- The files that are open are those of the sessions, each of which has one at most. -/
structure Owned (file : Nat → Fd) (w : World) : Prop where
  open_iff : ∀ n, w.position n ≠ none ↔ ∃ i, file i = some n
  lt : ∀ i n, file i = some n → n < w.nextFd
  apart : ∀ i j n, file i = some n → file j = some n → i = j

/-- What a step may do to the files: in the place of `fd` the session has `fd'` after it,
which is the same or a new one. -/
structure Passes (fd fd' : Fd) (w w' : World) : Prop where
  nextFd : w.nextFd ≤ w'.nextFd
  fresh : ∀ n, fd' = some n → fd = some n ∨ (n = w.nextFd ∧ n < w'.nextFd)
  open_iff : ∀ n, w'.position n ≠ none ↔ (w.position n ≠ none ∧ fd ≠ some n) ∨ fd' = some n

section Owned
variable {i : Nat} {file : Nat → Fd} {fd' : Fd} {w w' : World}

theorem Owned.pass (hs : Owned file w) (h : Passes (file i) fd' w w') :
    Owned (Function.update file i fd') w' := by
  -- the file that the session has now is nobody else's
  have hothers : ∀ j n, j ≠ i → file j = some n → fd' ≠ some n := by
    intro j n hj hn hn'
    rcases h.fresh n hn' with hold | ⟨rfl, _⟩
    · exact hj (hs.apart j i n hn hold)
    · exact Nat.lt_irrefl _ (hs.lt j _ hn)
  refine ⟨?_, ?_, ?_⟩
  · intro n
    rw [h.open_iff n, hs.open_iff n]
    constructor
    · rintro (⟨⟨j, hj⟩, hne⟩ | hn)
      · have hji : j ≠ i := by
          intro he
          exact hne (he ▸ hj)
        exact ⟨j, by rwa [Function.update_of_ne hji]⟩
      · exact ⟨i, by rwa [Function.update_self]⟩
    · rintro ⟨j, hj⟩
      by_cases hji : j = i
      · subst hji
        rw [Function.update_self] at hj
        exact Or.inr hj
      · rw [Function.update_of_ne hji] at hj
        refine Or.inl ⟨⟨j, hj⟩, ?_⟩
        intro hi
        exact hji (hs.apart j i n hj hi)
  · intro j n hj
    by_cases hji : j = i
    · subst hji
      rw [Function.update_self] at hj
      rcases h.fresh n hj with hold | ⟨_, hlt⟩
      · exact Nat.lt_of_lt_of_le (hs.lt j n hold) h.nextFd
      · exact hlt
    · rw [Function.update_of_ne hji] at hj
      exact Nat.lt_of_lt_of_le (hs.lt j n hj) h.nextFd
  · intro j k n hj hk
    by_cases hji : j = i <;> by_cases hki : k = i
    · rw [hji, hki]
    · subst hji
      rw [Function.update_self] at hj
      rw [Function.update_of_ne hki] at hk
      exact absurd hj (hothers k n hki hk)
    · subst hki
      rw [Function.update_self] at hk
      rw [Function.update_of_ne hji] at hj
      exact absurd hk (hothers j n hji hj)
    · rw [Function.update_of_ne hji] at hj
      rw [Function.update_of_ne hki] at hk
      exact hs.apart j k n hj hk

theorem Owned.still (hs : Owned file w) (i : Nat) : Passes (file i) (file i) w w where
  nextFd := Nat.le_refl _
  fresh _ hn := Or.inl hn
  open_iff n := by
    by_cases hn : file i = some n
    · simpa [hn] using (hs.open_iff n).mpr ⟨i, hn⟩
    · simp [hn]

theorem Owned.act {place place' : Place} {m m' : Shared World} (hs : Owned file m.inner)
    (hfile : file i = openFile place) (h : Act World.sys.shared i place m place' m') :
    Passes (file i) (fileAt (file i) place') m.inner m'.inner := by
  have heffect := act_effect h
  rw [hfile]
  refine ⟨heffect.nextFd, ?_, ?_⟩
  · intro n hn
    cases place' with
    | crashed => exact Or.inl hn
    | start | outside | inside | sought | between | replying | pending | replied | marked
    | finished =>
      apply (heffect.file n hn).imp
      · exact fun hold => hold.1
      · exact fun hnew => ⟨hnew.1, hnew.2.1⟩
  · apply act_open_iff h
    intro n hn
    rw [← hfile] at hn
    exact (hs.open_iff n).mpr ⟨i, hn⟩

end Owned

/-- Which session has which file open. One whose thread is not running has none. -/
structure Held (started : Nat → Bool) (stage : Nat → Place) (file : Nat → Fd)
    (pool : System Nat Nat (Shared World) Fault) : Prop where
  staged : System.Staged (course World.sys.shared) (fun place => ∃ seek, place = .finished seek)
    stage pool
  own : System.Own pool
  unstarted : ∀ i, started i = false → pool.tasks i = none ∧ stage i = .start
  ended : ∀ i, started i = true → pool.tasks i = none → ∃ seek, stage i = .finished seek
  file_eq : ∀ i, file i = openFile (stage i) ∨ stage i = .crashed
  owned : Owned file pool.mem.inner

section Held
variable {limit : Nat} {started : Nat → Bool} {stage : Nat → Place} {file : Nat → Fd}
  {pool pool' : System Nat Nat (Shared World) Fault}

theorem held_start (k₀ : Kernel) (past : Nat → Nat)
    (incoming : Nat → List (Result (List UInt8))) (outgoing : Nat → List (Result Nat))
    (flags : Nat → Nat) : Held (fun _ => false) (fun _ => .start) (fun _ => none)
      (.start ⟨World.start k₀ past incoming outgoing, flags, []⟩) where
  staged i t ht := by cases ht
  own i t ht := by cases ht
  unstarted _ _ := ⟨rfl, rfl⟩
  ended i hi := by cases hi
  file_eq _ := Or.inl rfl
  owned := by
    refine ⟨fun n => ?_, fun i n hn => ?_, fun i j n hn => ?_⟩
    · simp [System.start, World.start]
    · cases hn
    · cases hn

theorem Held.flags (hs : Held started stage file pool) (f : Nat → Nat) :
    Held started stage file { pool with mem := { pool.mem with threadComplete := f } } :=
  ⟨hs.staged, hs.own, hs.unstarted, hs.ended, hs.file_eq, hs.owned⟩

/-- A new thread has no file open. -/
theorem Held.launch (hs : Held started stage file pool) {i : Nat} (hi : started i = false) :
    Held (Function.update started i true) stage file
      (pool.goto i (some ⟨i, dataProcessor World.sys.shared limit i⟩)) := by
  obtain ⟨hnone, hstart⟩ := hs.unstarted i hi
  have h : System.Step (dataProcessor World.sys.shared limit) pool _ _ := .invoke i hnone
  obtain ⟨_, ⟨rfl, _⟩, hstaged⟩ :=
    hs.staged.step h (fun _ => course_dataProcessor World.sys.shared limit i)
  rw [← hstart, Function.update_eq_self] at hstaged
  refine ⟨hstaged, hs.own.step h rfl, ?_, ?_, hs.file_eq, hs.owned⟩
  · intro j hj
    have hne : j ≠ i := by
      intro he
      rw [he, Function.update_self] at hj
      cases hj
    rw [Function.update_of_ne hne] at hj
    rw [h.tasks_of_ne hne]
    exact hs.unstarted j hj
  · intro j hj htask
    have hne : j ≠ i := by
      intro he
      rw [he] at htask
      cases h.task_none_iff.mp htask
    rw [Function.update_of_ne hne] at hj
    rw [h.tasks_of_ne hne] at htask
    exact hs.ended j hj htask

/-- What a step of a session does to its place and its file. -/
theorem Held.step (hs : Held started stage file pool) {e : Event Nat Nat}
    (hkind : e.kind ≠ .invoke)
    (h : System.Step (dataProcessor World.sys.shared limit) pool e pool') :
    ∃ place', Held started (Function.update stage e.task place')
        (Function.update file e.task (fileAt (file e.task) place')) pool' ∧
      ((e.kind = .act ∧ Act World.sys.shared e.task (stage e.task) pool.mem place' pool'.mem) ∨
        (e.kind ≠ .act ∧ pool'.mem = pool.mem ∧ Still (stage e.task) place')) := by
  obtain ⟨place', hmoves, hstaged⟩ := hs.staged.step h (fun hi => absurd hi hkind)
  have hcall := hs.own.call_eq h hkind
  have hact := act_or_still hkind hcall hmoves
  have hfile : fileAt (file e.task) place' = openFile place' ∨ place' = .crashed := by
    cases place' with
    | crashed => exact Or.inr rfl
    | start | outside | inside | sought | between | replying | pending | replied | marked
    | finished => exact Or.inl rfl
  have hpasses : Passes (file e.task) (fileAt (file e.task) place') pool.mem.inner
      pool'.mem.inner := by
    rcases hact with ⟨_, hact⟩ | ⟨_, hmem, hstill⟩
    · apply hs.owned.act _ hact
      apply (hs.file_eq e.task).resolve_right
      intro hcrashed
      rw [hcrashed] at hact
      cases hact
    · rw [hmem, (fileAt_still hstill (hs.file_eq e.task)).1]
      exact hs.owned.still e.task
  refine ⟨place', ⟨hstaged, hs.own.step h hcall, ?_, ?_, ?_, hs.owned.pass hpasses⟩, hact⟩
  · intro j hj
    have hne : j ≠ e.task := by
      intro he
      rw [he] at hj
      exact hkind (h.was_none_iff.mp (hs.unstarted _ hj).1)
    rw [Function.update_of_ne hne, h.tasks_of_ne hne]
    exact hs.unstarted j hj
  · intro j hj htask
    by_cases hne : j = e.task
    · subst hne
      have hfinish := h.task_none_iff.mp htask
      simp only [System.Moves, hfinish] at hmoves
      rw [Function.update_self, hmoves.2.1]
      exact hmoves.1
    · rw [Function.update_of_ne hne]
      rw [h.tasks_of_ne hne] at htask
      exact hs.ended j hj htask
  · intro j
    by_cases hne : j = e.task
    · subst hne
      rw [Function.update_self, Function.update_self]
      exact hfile
    · rw [Function.update_of_ne hne, Function.update_of_ne hne]
      exact hs.file_eq j

theorem held_of_runs {k₀ : Kernel} {past : Nat → Nat}
    {incoming : Nat → List (Result (List UInt8))} {outgoing : Nat → List (Result Nat)}
    {flags : Nat → Nat} {Ok : Process World → Process World → Prop} {s : Process World}
    (hrun : Process.Runs (dataProcessor World.sys.shared limit) Ok
      (.start ⟨World.start k₀ past incoming outgoing, flags, []⟩) s) :
    ∃ stage file, Held s.started stage file s.pool := by
  have hlasting : Lasting World.sys limit
      (fun started pool => ∃ stage file, Held started stage file pool) := by
    refine ⟨?_, ?_, ?_⟩
    · intro started pool e pool' hs hkind h
      obtain ⟨stage, file, hs⟩ := hs
      obtain ⟨place', hs', _⟩ := hs.step hkind h
      exact ⟨_, _, hs'⟩
    · intro started pool i hs hi _
      obtain ⟨stage, file, hs⟩ := hs
      exact ⟨_, _, hs.launch hi⟩
    · intro started pool f hs
      obtain ⟨stage, file, hs⟩ := hs
      exact ⟨_, _, hs.flags f⟩
  exact hlasting.of_runs ⟨_, _, held_start k₀ past incoming outgoing flags⟩ hrun

end Held

/-- No file on the device is left open. In every state of the server, whatever its
clients send, the calls on their connections return and the driver answers, the open
files are those of threads that are running, and each of these has one at most. -/
theorem open_files_have_threads {k₀ : Kernel} {past : Nat → Nat}
    {incoming : Nat → List (Result (List UInt8))} {outgoing : Nat → List (Result Nat)}
    {flags : Nat → Nat} {limit : Nat} {s : Process World}
    (hrun : Process.Runs (dataProcessor World.sys.shared limit) (fun _ _ => True)
      (.start ⟨World.start k₀ past incoming outgoing, flags, []⟩) s) :
    ∃ file : Nat → Option Nat,
      (∀ n, s.pool.mem.inner.position n ≠ none ↔ ∃ i, file i = some n) ∧
      (∀ i j n, file i = some n → file j = some n → i = j) ∧
      ∀ i, file i ≠ none → s.pool.tasks i ≠ none := by
  obtain ⟨stage, file, hs⟩ := held_of_runs hrun
  refine ⟨file, hs.owned.open_iff, hs.owned.apart, fun i hfile htask => hfile ?_⟩
  cases hi : s.started i with
  | false =>
    have hstart := (hs.unstarted i hi).2
    have heq := (hs.file_eq i).resolve_right (by simp [hstart])
    rw [heq, hstart]
    rfl
  | true =>
    obtain ⟨seek, hfinished⟩ := hs.ended i hi htask
    have heq := (hs.file_eq i).resolve_right (by simp [hfinished])
    rw [heq, hfinished]
    rfl

/-- The server in the given system. -/
abbrev visit (w : World) (limit : Nat) (schedule : List Process.Choice) :
    Option (Process World) :=
  Process.exec (dataProcessor World.sys.shared limit) (fun _ _ => true)
    (.start ⟨w, fun _ => 0, []⟩) schedule

theorem runs_visit {w : World} {limit : Nat} {schedule : List Process.Choice} {s : Process World}
    (h : visit w limit schedule = some s) :
    Process.Runs (dataProcessor World.sys.shared limit) (fun _ _ => True)
      (.start ⟨w, fun _ => 0, []⟩) s :=
  Process.Runs.refl.exec (fun _ _ _ => trivial) h

/-- The first client cannot be heard, and the second is interrupted once and then gets
one byte at a time. -/
abbrev crackling : World :=
  .start (booted plenty) (fun _ => 0)
    (fun i => if i = 0 then [.failed] else [.eintr, .done [97, 10]])
    (fun i => if i = 0 then [] else [.eintr, .done 1])

/-- The first session is over, and the second has opened the fourth file for its reply. -/
theorem fourth_file_has_thread :
    ∃ s : Process World,
      Process.Runs (dataProcessor World.sys.shared 4) (fun _ _ => True)
        (.start ⟨crackling, fun _ => 0, []⟩) s ∧
      (s.pool.tasks 0).isSome = false ∧ s.pool.mem.inner.sent 1 = [97] ∧
      [0, 1, 2, 3].map s.pool.mem.inner.position = [none, none, none, some 2] ∧
      ∃ i, s.pool.tasks i ≠ none := by
  have hplay : (visit crackling 4 (proceed 4 8 ++ work 0 8 ++ proceed 5 4 ++ work 1 11)).map
      (fun s => ((s.pool.tasks 0).isSome, s.pool.mem.inner.sent 1,
        [0, 1, 2, 3].map s.pool.mem.inner.position)) =
      some (false, [97], [none, none, none, some 2]) := by decide +kernel
  obtain ⟨s, hs, hobs⟩ := Option.map_eq_some_iff.mp hplay
  simp only [Prod.mk.injEq] at hobs
  obtain ⟨htask, hsent, hfiles⟩ := hobs
  have hfourth : s.pool.mem.inner.position 3 = some 2 := by
    simp only [List.map_cons, List.cons.injEq] at hfiles
    exact hfiles.2.2.2.1
  obtain ⟨file, hopen, _, hthreads⟩ := open_files_have_threads (runs_visit hs)
  obtain ⟨i, hi⟩ := (hopen 3).mp (by simp [hfourth])
  exact ⟨s, runs_visit hs, htask, hsent, hfiles, i, hthreads i (by simp [hi])⟩

end Aesd.Proofs
