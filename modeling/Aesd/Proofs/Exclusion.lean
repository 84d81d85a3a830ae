import Aesd.Base.Lock
import Aesd.Proofs.Boot
import Aesd.Proofs.Steps

namespace Aesd.Proofs
open Base Driver Code

section Brackets
variable {intr : Bool}

theorem brackets_aesdRead (buf : UserDest) (fPos : Int) :
    Brackets intr (fun held _ => held = false) false (aesdRead buf fPos) := by
  refine brackets_lockInterruptible.bind (fun held interrupted hheld => ?_)
  cases interrupted with
  | true => exact hheld
  | false =>
    subst hheld
    exact (inner_aesdReadLocked _ _).brackets (fun _ => brackets_release.bind (fun _ _ h => h))

theorem brackets_aesdWrite (buf : UserSource) (fPos : Int) :
    Brackets intr (fun held _ => held = false) false (aesdWrite buf fPos) := by
  refine brackets_lockInterruptible.bind (fun held interrupted hheld => ?_)
  cases interrupted with
  | true => exact hheld
  | false =>
    subst hheld
    exact (inner_kmalloc _).brackets (fun _ => (inner_aesdWriteLocked _ _ _).brackets
      (fun _ => (inner_kfree _).brackets (fun _ => brackets_release.bind (fun _ _ h => h))))

theorem brackets_seekEntry (past : Nat → Nat) {writeCmd : Nat} (writeCmdOffset : Nat)
    (fPos : Int) (hc : writeCmd < 10) :
    Brackets false (fun held _ => held = true) false
      (seekEntry past writeCmd writeCmdOffset fPos) := by
  have hn : ¬ writeCmd ≥ 10 := by omega
  unfold seekEntry
  simp only [hn, ↓reduceIte]
  refine brackets_lock_uninterrupted.bind (fun held interrupted hlock => ?_)
  obtain ⟨rfl, rfl⟩ := hlock
  exact inner_getDev.brackets (fun _ => rfl)

/-- The seek gives the lock back on every path, so it has to get it on every
path. -/
theorem brackets_aesdAdjustFileOffset (past : Nat → Nat) {writeCmd : Nat} (writeCmdOffset : Nat)
    (fPos : Int) (hc : writeCmd < 10) :
    Brackets false (fun held _ => held = false) false
      (aesdAdjustFileOffset past writeCmd writeCmdOffset fPos) := by
  refine (brackets_seekEntry past writeCmdOffset fPos hc).bind (fun held _ hheld => ?_)
  subst hheld
  exact brackets_release.bind (fun _ _ h => h)

end Brackets

/-- The calls whose wait for the lock may be interrupted without harm: all but
the seek. -/
def interruptible : FileOp → Bool
  | .ioctl _ cmd _ _ => decide (cmd ≠ AESDCHAR_IOCSEEKTO)
  | _ => true

/-- A call that the range check of the seek does not refuse. -/
def FileOp.InRange : FileOp → Prop
  | .ioctl _ cmd (some (writeCmd, _)) _ => cmd = AESDCHAR_IOCSEEKTO → writeCmd < 10
  | _ => True

/-- A step that keeps the lock in order: no call is refused by the range check
of the seek, and no seek is interrupted while it waits for the lock. -/
def KeepsLock {ι : Type} (e : Event ι FileOp) : Prop :=
  (e.kind = .invoke → FileOp.InRange e.call) ∧
    (e.kind = .interrupt → interruptible e.call = true)

theorem brackets_aesdFops {c : FileOp} (hc : FileOp.InRange c) :
    Brackets (interruptible c) (fun held _ => held = false) false (aesdFops c) := by
  cases c with
  | read buf fPos => exact (brackets_aesdRead buf fPos).bind (fun _ _ h => h)
  | write buf fPos => exact (brackets_aesdWrite buf fPos).bind (fun _ _ h => h)
  | ioctl past cmd arg fPos =>
    refine Brackets.bind (Q := fun held _ => held = false) ?_ (fun _ _ h => h)
    unfold aesdIoctl
    split
    · rename_i hcmd
      split
      · exact rfl
      · rename_i writeCmd writeCmdOffset
        rw [show interruptible (.ioctl past cmd (some (writeCmd, writeCmdOffset)) fPos) = false by
          simp [interruptible, hcmd]]
        exact brackets_aesdAdjustFileOffset past _ _ (hc hcmd)
    · exact rfl

/-- What a task does that makes a call. -/
def syscall (c : FileOp) : KernelM Unit := do let _ ← aesdFops c

section Runs
variable {ι : Type} [DecidableEq ι]

/-- The device lock is exclusive and is given back by its owner only, as long as
no seek comes to the label `fail` without the lock. -/
theorem device_lock_excludes {mem : Kernel} {s : System ι FileOp Kernel Fault}
    (hs : System.Reaches syscall KeepsLock (.start mem) s) :
    (∀ i j, s.inside i = true → s.inside j = true → i = j) ∧
      ∀ e s', System.Step syscall s e s' → e.kind = .unlock → s.owner = some e.task := by
  have ho : System.Orderly interruptible s :=
    hs.orderly (fun e he hk => (brackets_aesdFops (he.1 hk)).bind (fun _ _ h => h))
      (fun e he hk => he.2 hk)
  exact ⟨fun i j hi hj => ho.exclusive hi hj, fun e s' h hk => ho.unlock_by_owner h hk⟩

end Runs

/-- A write of a whole packet. -/
abbrev hiCall : FileOp := .write ⟨[104, 105, 10], false⟩ 0

/-- Two writers, the first of which has the lock. -/
theorem device_lock_excludes_second_writer :
    ∃ s : System (Fin 2) FileOp Kernel Fault,
      System.Reaches syscall KeepsLock (.start (booted plenty)) s ∧ s.inside 0 = true ∧
        (s.tasks 1).isSome ∧ ∀ j, s.inside j = true → j = 0 := by
  have h₁ : System.Reaches syscall KeepsLock (.start (booted plenty)) _ :=
    .step (e := ⟨.invoke, (0 : Fin 2), hiCall⟩) .refl ⟨fun _ => trivial, by simp⟩ (.invoke _ rfl)
  have h₂ := h₁.step (e := ⟨.acquire, 0, hiCall⟩) ⟨by simp, by simp⟩ (.acquire rfl rfl)
  have h₃ := h₂.step (e := ⟨.invoke, 1, hiCall⟩) ⟨fun _ => trivial, by simp⟩ (.invoke _ rfl)
  exact ⟨_, h₃, rfl, rfl, fun j hj => (device_lock_excludes h₃).1 j 0 hj rfl⟩

/-- A seek to command 10 gives back the lock that a write of task 0 has, and a
read joins the write in its critical section. -/
theorem seek_gives_away_lock :
    ∃ s s' s'' : System (Fin 3) FileOp Kernel Fault, ∃ e,
      System.Reaches syscall (fun _ => True) (.start (booted plenty)) s ∧
      System.Step syscall s e s' ∧ e.kind = .unlock ∧ e.task = 1 ∧ s.owner = some 0 ∧
      System.Reaches syscall (fun _ => True) (.start (booted plenty)) s'' ∧
      s''.inside 0 = true ∧ s''.inside 2 = true := by
  obtain ⟨s, hs, howner, hrest⟩ : ∃ s, System.exec syscall (.start (booted plenty))
      [((0 : Fin 3), .call hiCall), (0, .go),
        (1, .call (.ioctl (fun _ => 0) AESDCHAR_IOCSEEKTO (some (10, 0)) 0))] = some s ∧
      s.owner = some 0 ∧ ∃ e s', System.next syscall s 1 .go = some (e, s') ∧
        e.kind = .unlock ∧ e.task = 1 ∧
        ∃ s'', System.exec syscall s' [(2, .call (.read ⟨1, none⟩ 0)), (2, .go)] = some s'' ∧
          s''.inside 0 = true ∧ s''.inside 2 = true :=
    ⟨_, rfl, rfl, _, _, rfl, rfl, rfl, _, rfl, rfl, rfl⟩
  obtain ⟨e, s', hnext, hkind, htask, s'', hlast, h₀, h₂⟩ := hrest
  have hreach := System.Reaches.refl.exec _ (fun _ _ _ _ _ _ => trivial) hs
  have hstep := System.step_of_next hnext
  exact ⟨s, s', s'', e, hreach, hstep, hkind, htask, howner,
    (hreach.step trivial hstep).exec _ (fun _ _ _ _ _ _ => trivial) hlast, h₀, h₂⟩

end Aesd.Proofs
