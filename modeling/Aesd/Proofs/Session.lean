import Aesd.Proofs.Steps
import Aesd.Server.World

namespace Aesd.Proofs
open Base Driver Server
open Base.Code (Grows grows_call grows_ofExcept grows_lockInterruptible grows_release)

section Growth
variable {σ : Type}

/-- No system call lowers `m`. -/
structure SysGrows (m : σ → Nat) (sys : Sys σ) : Prop where
  openDevice : ∀ s, m s ≤ m (sys.openDevice s).2
  closeDevice : ∀ fd s, m s ≤ m (sys.closeDevice fd s).2
  recv : ∀ skt s, m s ≤ m (sys.recv skt s).2
  send : ∀ skt bytes s, m s ≤ m (sys.send skt bytes s).2
  read : ∀ fd n s, m s ≤ m (sys.read fd n s).2
  write : ∀ fd bytes s, m s ≤ m (sys.write fd bytes s).2
  ioctl : ∀ fd c o s, m s ≤ m (sys.ioctl fd c o s).2
  complete : ∀ skt s, m s ≤ m (sys.complete skt s).2

variable {m : σ → Nat} {sys : Sys σ}

theorem SysGrows.sendLoop (h : SysGrows m sys) (skt : Nat) (bytes : List UInt8) (fuel : Nat) :
    Grows m (sendLoop sys skt bytes fuel) := by
  induction fuel with
  | zero => trivial
  | succ fuel ih =>
    refine (grows_call (h.send skt bytes)).bind (fun r => ?_)
    split
    · trivial
    · exact ih
    · trivial

theorem SysGrows.readLoop (h : SysGrows m sys) (skt : Nat) (fd : Fd) (limit fuel : Nat)
    (buf : List UInt8) : Grows m (readLoop sys skt fd limit fuel buf) := by
  induction fuel generalizing buf with
  | zero => trivial
  | succ fuel ih =>
    refine (grows_call (h.read fd _)).bind (fun r => ?_)
    split
    · exact ih buf
    · trivial
    · refine (grows_ofExcept _).bind (fun buf => ?_)
      split
      · trivial
      · refine (grows_ofExcept _).bind (fun bytes => (h.sendLoop skt bytes limit).bind (fun ok => ?_))
        split
        · exact ih buf
        · trivial

theorem SysGrows.putChunk (h : SysGrows m sys) (skt : Nat) (fd : Fd) (limit : Nat)
    (buf : List UInt8) (n fuel : Nat) : Grows m (putChunk sys skt fd limit buf n fuel) := by
  induction fuel with
  | zero => trivial
  | succ fuel ih =>
    refine grows_lockInterruptible.bind (fun failed => ?_)
    split
    · exact ih
    · split
      · exact (grows_ofExcept _).bind (fun _ => (grows_call (h.ioctl fd _ _)).bind (fun _ =>
          grows_release.bind (fun _ => (h.readLoop skt fd limit limit _).bind (fun _ => trivial))))
      · refine (grows_call (h.write fd _)).bind (fun r => ?_)
        split
        · exact ih
        · trivial
        · exact grows_release.bind (fun _ => trivial)

theorem SysGrows.receiveLoop (h : SysGrows m sys) (skt : Nat) (fd : Fd) (limit fuel : Nat)
    (buf : List UInt8) : Grows m (receiveLoop sys skt fd limit fuel buf) := by
  induction fuel generalizing buf with
  | zero => trivial
  | succ fuel ih =>
    refine (grows_call (h.recv skt)).bind (fun r => ?_)
    split
    · exact ih buf
    · trivial
    · exact ih buf
    · refine (grows_ofExcept _).bind (fun buf => (grows_ofExcept _).bind (fun eop =>
        (h.putChunk skt fd limit buf _ limit).bind (fun ret => ?_)))
      split
      · trivial
      · split
        · trivial
        · exact ih buf

theorem SysGrows.dataProcessor (h : SysGrows m sys) (limit skt : Nat) :
    Grows m (dataProcessor sys limit skt) := by
  refine (grows_call h.openDevice).bind (fun fd => (h.receiveLoop skt fd limit limit _).bind
    (fun ret => ?_))
  split
  · exact (grows_call (h.closeDevice fd)).bind (fun _ => (grows_call h.openDevice).bind (fun fd =>
      (h.readLoop skt fd limit limit _).bind (fun _ => (grows_call (h.complete skt)).bind (fun _ =>
        grows_call (h.closeDevice fd)))))
  · exact grows_call (h.closeDevice fd)

end Growth

/-- How often the driver has been denied memory so far. -/
def refused (w : World) : Nat := denied w.kernel

theorem sys_grows : SysGrows refused World.sys where
  openDevice _ := Nat.le_refl _
  closeDevice fd s := by cases fd <;> exact Nat.le_refl _
  recv _ _ := Nat.le_refl _
  send _ _ _ := Nat.le_refl _
  complete _ _ := Nat.le_refl _
  read fd n s := by
    simp only [World.sys, World.read]
    split
    · exact Nat.le_refl _
    · rename_i p _
      have hgrows := (grows_aesdRead ⟨n, none⟩ p).run false s.kernel
      split <;> rename_i hrun <;> rw [hrun] at hgrows <;> exact hgrows
  write fd bytes s := by
    simp only [World.sys, World.write]
    split
    · exact Nat.le_refl _
    · rename_i p _
      have hgrows := (grows_aesdWrite ⟨bytes, false⟩ p).run false s.kernel
      split <;> rename_i hrun <;> rw [hrun] at hgrows <;> exact hgrows
  ioctl fd c o s := by
    simp only [World.sys, World.ioctl]
    split
    · exact Nat.le_refl _
    · rename_i p _
      obtain ⟨res, hrun⟩ := aesd_ioctl_keeps false s.kernel s.past AESDCHAR_IOCSEEKTO (some (c, o)) p
      rw [hrun]
      exact Nat.le_refl _

end Aesd.Proofs
