import Aesd.Proofs.Conduct

namespace Aesd.Proofs
open Base Server

variable {ι σ : Type} {sys : Sys σ} {limit : Nat}

/-- The call that the next step of a thread is, if it is one. -/
def nextCall (s : System ι Nat (Shared σ) Fault) (i : ι) : Option Call :=
  match s.tasks i with
  | some ⟨_, .act u _⟩ => (u s.mem).calls.getLast?
  | _ => none

/-- The thread is about to ask for the lock, or waits for it. -/
def atLock (s : System ι Nat (Shared σ) Fault) (i : ι) : Bool :=
  match s.tasks i with
  | some ⟨_, .lock _ _⟩ => true
  | _ => false

/-- The thread has not been started, or has returned. -/
def returned (s : System ι Nat (Shared σ) Fault) (i : ι) : Bool :=
  match s.tasks i with
  | none => true
  | some ⟨_, .ret ()⟩ => true
  | _ => false

/-- A step in which no write to the device fails. -/
def Accepts (s s' : Shared σ) : Prop := ∀ bytes, s'.calls ≠ s.calls ++ [.write bytes true]

/-- Who has the lock is about to use it for a command to the device. -/
structure Trusty (stage : ι → Progress) (s : System ι Nat (Shared σ) Fault) : Prop where
  staged : System.Staged conduct Progress.Over stage s
  inside : ∀ i, s.inside i = true → (stage i).grip = .held
  never : ∀ i, (stage i).grip ≠ .kept
  idle : ∀ i, s.tasks i = none → s.inside i = false

theorem trusty_start (mem : Shared σ) :
    Trusty (fun _ => Progress.first) (System.start mem : System ι Nat (Shared σ) Fault) where
  staged := by
    intro i t ht
    cases ht
  inside := by
    intro i hi
    cases hi
  never := by simp [Progress.first]
  idle _ _ := rfl

/-- An accepted call does not make the lock stay. -/
theorem grip_next {st : Progress} {c : Call} {s s' : Shared σ} (hmakes : Makes c s s')
    (hok : Accepts s s') : (st.next c).grip = st.grip := by
  cases c with
  | write bytes failed =>
    cases failed with
    | false => rfl
    | true => exact absurd hmakes.calls (hok bytes)
  | openDevice | closeDevice | recv | send | read | ioctl | complete => rfl

variable {stage : ι → Progress} {s s' : System ι Nat (Shared σ) Fault}

/-- A call that the rules do not allow with the lock is made without it. -/
theorem Trusty.outside (hs : Trusty stage s) {i : ι} {c : Call} (hat : nextCall s i = some c)
    (hrule : ∀ j st, Progress.May j st c → st.grip ≠ .held) : s.inside i = false := by
  unfold nextCall at hat
  split at hat
  · rename_i u k ht
    obtain ⟨_, ⟨c', hmakes, hmay, _⟩, _⟩ := hs.staged i _ ht s.mem
    obtain rfl : c' = c := by
      rw [hmakes.calls] at hat
      simpa using hat
    by_contra hi
    exact hrule _ _ hmay (hs.inside i (by simpa using hi))
  · cases hat

theorem Trusty.returned (hs : Trusty stage s) {i : ι} (hret : returned s i = true) :
    s.inside i = false := by
  unfold Proofs.returned at hret
  split at hret
  · exact hs.idle i ‹_›
  · rename_i ht
    have hover : (stage i).Over := hs.staged i _ ht
    by_contra hi
    exact hover.1 (hs.inside i (by simpa using hi))
  · cases hret

theorem Trusty.atLock (hs : Trusty stage s) {i : ι} (hlock : atLock s i = true) :
    s.inside i = false := by
  unfold Proofs.atLock at hlock
  split at hlock
  · rename_i ht
    obtain ⟨⟨_, ⟨hnot, _⟩, _⟩, _⟩ := hs.staged i _ ht
    by_contra hi
    exact hnot (hs.inside i (by simpa using hi))
  · cases hlock

variable [DecidableEq ι] {e : Event ι Nat}

/-- One step in which no write fails. -/
theorem Trusty.step (hs : Trusty stage s)
    (h : System.Step (dataProcessor sys.shared limit) s e s') (hok : Accepts s.mem s'.mem) :
    ∃ stage', Trusty stage' s' := by
  obtain ⟨st', hmoves, hstaged⟩ :=
    hs.staged.step h (fun _ => follows_dataProcessor sys limit e.call)
  have hinside := h.inside_self
  have htask := h.task_none_iff
  have hwas := h.was_none_iff
  -- the task that takes the step, and what is left to show of it
  suffices hi : (s'.inside e.task = true → st'.grip = .held) ∧ st'.grip ≠ .kept ∧
      (e.kind = .finish → s'.inside e.task = false) by
    obtain ⟨hheld, hnever, hidle⟩ := hi
    refine ⟨_, hstaged, fun j hj => ?_, fun j => ?_, fun j hj => ?_⟩
    · by_cases he : j = e.task
      · subst he
        simpa using hheld hj
      · simpa [he] using hs.inside j (h.inside_of_ne he ▸ hj)
    · by_cases he : j = e.task
      · subst he
        simpa using hnever
      · simpa [he] using hs.never j
    · by_cases he : j = e.task
      · subst he
        exact hidle (htask.mp hj)
      · rw [h.inside_of_ne he]
        exact hs.idle j (h.tasks_of_ne he ▸ hj)
  have hin := hs.inside e.task
  have hnever := hs.never e.task
  unfold System.Moves at hmoves
  cases hkind : e.kind with
  | invoke =>
    simp only [hkind] at hmoves hinside
    rw [hmoves.1, hinside, hs.idle e.task (hwas.mpr hkind)]
    simp [Progress.first]
  | acquire =>
    simp only [hkind] at hmoves
    obtain ⟨⟨hnot, rfl⟩, _⟩ := hmoves
    have hfree : (stage e.task).grip = .free := by
      cases hg : (stage e.task).grip with
      | free => rfl
      | held => exact absurd hg hnot
      | kept => exact absurd hg hnever
    simp [Progress.taken, hfree]
  | interrupt =>
    simp only [hkind] at hmoves hinside
    obtain ⟨rfl, _⟩ := hmoves
    rw [hinside]
    exact ⟨hin, hnever, by simp⟩
  | unlock =>
    simp only [hkind] at hmoves hinside
    obtain ⟨⟨_, rfl⟩, _⟩ := hmoves
    rw [hinside]
    refine ⟨by simp, ?_, by simp⟩
    unfold Progress.given
    split
    · simp
    · exact hnever
  | act =>
    simp only [hkind] at hmoves hinside
    obtain ⟨c, hmakes, _, rfl⟩ := hmoves
    rw [hinside, grip_next hmakes hok]
    exact ⟨hin, hnever, by simp⟩
  | finish =>
    simp only [hkind] at hmoves hinside
    obtain ⟨hover, rfl, _⟩ := hmoves
    rw [hinside]
    refine ⟨hin, hnever, fun _ => ?_⟩
    by_contra hi
    exact hover.1 (hin (by simpa using hi))

theorem trusty_of_runs {mem : Shared σ}
    (hrun : System.Runs (dataProcessor sys.shared limit) Accepts (.start mem) s) :
    ∃ stage, Trusty stage s := by
  induction hrun with
  | refl => exact ⟨_, trusty_start mem⟩
  | step _ hok h ih =>
    obtain ⟨stage, hs⟩ := ih
    exact hs.step h hok

/-- In runs in which no write to the device fails, a thread that receives, sends a
reply or has returned does not have `write_lock`, and neither has one that asks
for it. -/
theorem write_lock_given_back {ι σ : Type} [DecidableEq ι] {sys : Sys σ} {limit : Nat}
    {mem : Shared σ} {s : System ι Nat (Shared σ) Fault}
    (hrun : System.Runs (dataProcessor sys.shared limit) Accepts (.start mem) s) (i : ι) :
    (∀ skt, nextCall s i = some (.recv skt) → s.inside i = false) ∧
    (nextCall s i = some .read → s.inside i = false) ∧
    (∀ skt bytes, nextCall s i = some (.send skt bytes) → s.inside i = false) ∧
    (returned s i = true → s.inside i = false) ∧
    (atLock s i = true → s.inside i = false) := by
  obtain ⟨stage, hs⟩ := trusty_of_runs hrun
  refine ⟨?_, ?_, ?_, hs.returned, hs.atLock⟩
  · exact fun skt hat => hs.outside hat (fun _ _ hmay => hmay)
  · exact fun hat => hs.outside hat (fun _ _ hmay => hmay)
  · exact fun skt bytes hat => hs.outside hat (fun _ _ hmay => hmay)

/-- A system in which a client always has `chunk` to say, the device is empty, and
every write to it ends in the same way. -/
def stub (chunk : List UInt8) (written : Result Nat) : Sys Unit :=
  { openDevice := fun s => (.ok (some 0), s)
    closeDevice := fun _ s => (.ok (), s)
    recv := fun _ s => (.ok (.done chunk), s)
    send := fun _ bytes s => (.ok (.done bytes.length), s)
    read := fun _ _ s => (.ok (.done (0, [])), s)
    write := fun _ _ s => (.ok written, s)
    ioctl := fun _ _ _ s => (.ok 0, s)
    complete := fun _ s => (.ok (), s) }

/-- Nothing has happened yet. -/
def quiet : Shared Unit := ⟨(), fun _ => 0, []⟩

/-- `Accepts`, to be evaluated. -/
def accepted (m m' : Shared σ) : Bool :=
  match m'.calls.drop m.calls.length with
  | [.write _ failed] => !failed
  | _ => true

theorem accepts_of_accepted {m m' : Shared σ} (h : accepted m m' = true) : Accepts m m' := by
  intro bytes hcalls
  simp [accepted, hcalls] at h

/-- The state after a schedule in which no write fails. -/
abbrev accepting (sys : Sys Unit) (schedule : List (Nat × System.Choice Nat)) :
    Option (System Nat Nat (Shared Unit) Fault) :=
  (System.trace (dataProcessor sys.shared 4) (fun s _ s' => accepted s.mem s'.mem)
    [.start quiet] (.start quiet) schedule).map Prod.snd

theorem runs_accepting {sys : Sys Unit} {schedule : List (Nat × System.Choice Nat)}
    {s : System Nat Nat (Shared Unit) Fault} (h : accepting sys schedule = some s) :
    System.Runs (dataProcessor sys.shared 4) Accepts (.start quiet) s := by
  obtain ⟨⟨states, s'⟩, htrace, rfl⟩ := Option.map_eq_some_iff.mp h
  have htr := System.Trace.start.trace (fun s e s' hcheck => hcheck) htrace
  exact htr.runs (fun s e s' hcheck => accepts_of_accepted hcheck)

/-- Two clients: the first takes `n` steps, then the second goes into its critical
section. -/
def overtaken (n : Nat) : List (Nat × System.Choice Nat) :=
  (0, .call 0) :: (1, .call 1) :: (List.replicate n (0, .go) ++ List.replicate 3 (1, .go))

/-- The first client at its second `recv`, in its reply and after its return. The device
has taken its write each time, and the second client has the lock. -/
theorem write_lock_passed_on :
    ∃ s s' s'' : System Nat Nat (Shared Unit) Fault,
      System.Runs (dataProcessor (stub [97] (.done 1)).shared 4) Accepts (.start quiet) s ∧
      System.Runs (dataProcessor (stub [97, 10] (.done 2)).shared 4) Accepts (.start quiet) s' ∧
      System.Runs (dataProcessor (stub [97, 10] (.done 2)).shared 4) Accepts (.start quiet) s'' ∧
      (Call.write [97] false ∈ s.mem.calls ∧ nextCall s 0 = some (.recv 0) ∧
        s.inside 1 = true ∧ s.inside 0 = false) ∧
      (Call.write [97, 10] false ∈ s'.mem.calls ∧ nextCall s' 0 = some .read ∧
        s'.inside 1 = true ∧ s'.inside 0 = false) ∧
      (Call.write [97, 10] false ∈ s''.mem.calls ∧ returned s'' 0 = true ∧
        s''.inside 1 = true ∧ s''.inside 0 = false) := by
  have hrecv : (accepting (stub [97] (.done 1)) (overtaken 5)).map (fun s =>
      (decide (Call.write [97] false ∈ s.mem.calls), nextCall s 0, s.inside 1)) =
      some (true, some (.recv 0), true) := by decide +kernel
  have hread : (accepting (stub [97, 10] (.done 2)) (overtaken 7)).map (fun s =>
      (decide (Call.write [97, 10] false ∈ s.mem.calls), nextCall s 0, s.inside 1)) =
      some (true, some .read, true) := by decide +kernel
  have hret : (accepting (stub [97, 10] (.done 2)) (overtaken 10)).map (fun s =>
      (decide (Call.write [97, 10] false ∈ s.mem.calls), returned s 0, s.inside 1)) =
      some (true, true, true) := by decide +kernel
  obtain ⟨s, hs, hat⟩ := Option.map_eq_some_iff.mp hrecv
  obtain ⟨s', hs', hat'⟩ := Option.map_eq_some_iff.mp hread
  obtain ⟨s'', hs'', hat''⟩ := Option.map_eq_some_iff.mp hret
  simp only [Prod.mk.injEq, decide_eq_true_eq] at hat hat' hat''
  have h := write_lock_given_back (runs_accepting hs) 0
  have h' := write_lock_given_back (runs_accepting hs') 0
  have h'' := write_lock_given_back (runs_accepting hs'') 0
  exact ⟨s, s', s'', runs_accepting hs, runs_accepting hs', runs_accepting hs'',
    ⟨hat.1, hat.2.1, hat.2.2, h.1 0 hat.2.1⟩,
    ⟨hat'.1, hat'.2.1, hat'.2.2, h'.2.1 hat'.2.1⟩,
    ⟨hat''.1, hat''.2.1, hat''.2.2, h''.2.2.2.1 hat''.2.1⟩⟩

/-- A single thread after `n` steps. -/
abbrev alone (sys : Sys Unit) (n : Nat) : Option (System Nat Nat (Shared Unit) Fault) :=
  System.exec (dataProcessor sys.shared 4) (.start quiet)
    ((0, .call 0) :: List.replicate n (0, .go))

theorem reaches_alone {n : Nat} {sys : Sys Unit} {s : System Nat Nat (Shared Unit) Fault}
    (h : alone sys n = some s) :
    System.Reaches (dataProcessor sys.shared 4) (fun _ => True) (.start quiet) s :=
  System.Reaches.refl.exec _ (fun _ _ _ _ _ _ => trivial) h

/-- Two chunks without a newline, neither of which the device takes. The thread
receives on with the lock held after the first, and asks for it again. -/
theorem write_lock_kept_after_failed_write :
    ∃ s s' : System Nat Nat (Shared Unit) Fault,
      System.Reaches (dataProcessor (stub [97] .failed).shared 4) (fun _ => True)
        (.start quiet) s ∧
      System.Reaches (dataProcessor (stub [97] .failed).shared 4) (fun _ => True)
        (.start quiet) s' ∧
      nextCall s 0 = some (.recv 0) ∧ s.inside 0 = true ∧
      atLock s' 0 = true ∧ s'.inside 0 = true := by
  have hrun : (alone (stub [97] .failed) 4).map (fun s => (nextCall s 0, s.inside 0)) =
      some (some (.recv 0), true) := by decide +kernel
  have hrun' : (alone (stub [97] .failed) 5).map (fun s => (atLock s 0, s.inside 0)) =
      some (true, true) := by decide +kernel
  obtain ⟨s, hs, hmem⟩ := Option.map_eq_some_iff.mp hrun
  obtain ⟨s', hs', hmem'⟩ := Option.map_eq_some_iff.mp hrun'
  obtain ⟨hnext, hin⟩ := Prod.mk.inj hmem
  obtain ⟨hlock, hin'⟩ := Prod.mk.inj hmem'
  exact ⟨s, s', reaches_alone hs, reaches_alone hs', hnext, hin, hlock, hin'⟩

end Aesd.Proofs
