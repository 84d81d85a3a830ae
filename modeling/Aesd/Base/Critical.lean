import Aesd.Base.Code

namespace Aesd.Base.Code
variable {σ ε α β : Type}

/-- The code has the lock. It gives it back in its last step, unless it faults. -/
def Critical : Code σ ε α → Prop
  | ret _ => False
  | fault _ => True
  | lock _ _ => False
  | unlock p => ∃ a, p = ret a
  | act _ k => ∀ s, Critical (k s)

/-- The code takes the lock in its first step and gives it back in its last. -/
def Guarded (p : Code σ ε α) : Prop :=
  ∃ acquired interrupted, p = lock acquired interrupted ∧ Critical acquired

theorem critical_release (a : α) : Critical (release >>= fun _ => (pure a : Code σ ε α)) :=
  ⟨a, rfl⟩

theorem Inner.critical {m : σ → Nat} {p : Code σ ε α} {f : α → Code σ ε β} (hp : Inner m p)
    (hf : ∀ a, Critical (f a)) : Critical (p >>= f) := by
  change Critical (p.bind f)
  induction p with
  | ret a => exact hf a
  | fault e => trivial
  | lock p q => exact hp.elim
  | unlock p => exact hp.elim
  | act u k ih => exact fun s => ih s (hp s).2

/-- What is computed from the result takes no step. -/
theorem Critical.result {p : Code σ ε α} (hp : Critical p) (f : α → β) :
    Critical (p >>= fun a => pure (f a)) := by
  change Critical (p.bind _)
  induction p with
  | ret a => exact hp.elim
  | fault e => trivial
  | lock p q => exact hp.elim
  | unlock p =>
    obtain ⟨a, rfl⟩ := hp
    exact ⟨f a, rfl⟩
  | act u k ih => exact fun s => ih s (hp s)

theorem Guarded.result {p : Code σ ε α} (hp : Guarded p) (f : α → β) :
    Guarded (p >>= fun a => pure (f a)) := by
  obtain ⟨acquired, interrupted, rfl, hacquired⟩ := hp
  exact ⟨_, _, rfl, hacquired.result f⟩

end Aesd.Base.Code
