import Mathlib.Logic.Basic

namespace Aesd.Base

/-- Code that shares a state and one lock with other code. Each constructor but
the first two is one step of execution; a fault ends the code where it stands. -/
inductive Code (σ ε α : Type) where
  | ret (a : α)
  | fault (e : ε)
  | lock (acquired interrupted : Code σ ε α)
  | unlock (next : Code σ ε α)
  | act (update : σ → σ) (next : σ → Code σ ε α)

namespace Code
variable {σ ε α β : Type}

/-- Sequencing grafts the rest of the code onto every normal end. -/
def bind : Code σ ε α → (α → Code σ ε β) → Code σ ε β
  | ret a, f => f a
  | fault e, _ => fault e
  | lock p q, f => lock (p.bind f) (q.bind f)
  | unlock p, f => unlock (p.bind f)
  | act u k, f => act u (fun s => (k s).bind f)

instance : Monad (Code σ ε) where
  pure := ret
  bind := bind

/-- One step that reads and updates the state, or faults and leaves it alone. -/
def exec (f : σ → Except ε (α × σ)) : Code σ ε α :=
  act (fun s => match f s with | .ok (_, t) => t | .error _ => s)
    (fun s => match f s with | .ok (a, _) => ret a | .error e => fault e)

/-- One step that may update the state even if it faults. -/
def call (f : σ → Except ε α × σ) : Code σ ε α :=
  act (fun s => (f s).2) (fun s => match (f s).1 with | .ok a => ret a | .error e => fault e)

/-- A result that takes no step to compute. -/
def ofExcept : Except ε α → Code σ ε α
  | .ok a => ret a
  | .error e => fault e

def get : Code σ ε σ := act id ret

def modify (f : σ → σ) : Code σ ε Unit := act f (fun _ => ret ())

/-- Waiting for the lock: `true` reports that a signal ended the wait. -/
def lockInterruptible : Code σ ε Bool := lock (ret false) (ret true)

def release : Code σ ε Unit := unlock (ret ())

/-- A run with nobody else around: the lock is free whenever it is asked for,
and `signal` says whether the wait for it is interrupted. The state survives a
fault, so that what happened before it can still be told. -/
def run (signal : Bool) : Code σ ε α → σ → Except ε α × σ
  | ret a, s => (.ok a, s)
  | fault e, s => (.error e, s)
  | lock p q, s => if signal then q.run signal s else p.run signal s
  | unlock p, s => p.run signal s
  | act u k, s => (k s).run signal (u s)

variable {signal : Bool} {s t : σ}

@[simp] theorem run_pure (a : α) : (pure a : Code σ ε α).run signal s = (.ok a, s) := rfl

@[simp] theorem run_get : (get : Code σ ε σ).run signal s = (.ok s, s) := rfl

@[simp] theorem run_modify (f : σ → σ) :
    (modify f : Code σ ε Unit).run signal s = (.ok (), f s) := rfl

@[simp] theorem run_lockInterruptible :
    (lockInterruptible : Code σ ε Bool).run signal s = (.ok signal, s) := by
  cases signal <;> rfl

@[simp] theorem run_release : (release : Code σ ε Unit).run signal s = (.ok (), s) := rfl

theorem run_exec (f : σ → Except ε (α × σ)) :
    (exec f).run signal s = match f s with
      | .ok (a, t) => (.ok a, t)
      | .error e => (.error e, s) := by
  cases h : f s <;> simp [exec, run, h]

theorem run_exec_ok {f : σ → Except ε (α × σ)} {a : α} (h : f s = .ok (a, t)) :
    (exec f).run signal s = (.ok a, t) := by
  rw [run_exec, h]

theorem run_exec_error {f : σ → Except ε (α × σ)} {e : ε} (h : f s = .error e) :
    (exec f).run signal s = (.error e, s) := by
  rw [run_exec, h]

theorem run_call (f : σ → Except ε α × σ) : (call f).run signal s = f s := by
  cases hf : f s with
  | mk r t => cases r <;> simp [call, run, hf]

@[simp] theorem ofExcept_ok_bind (a : α) (f : α → Code σ ε β) :
    (ofExcept (.ok a) >>= f : Code σ ε β) = f a := rfl

/-- A run of a sequence is the run of its parts, one after the other. -/
theorem run_bind (p : Code σ ε α) (f : α → Code σ ε β) :
    (p >>= f).run signal s = match p.run signal s with
      | (.ok a, t) => (f a).run signal t
      | (.error e, t) => (.error e, t) := by
  change (p.bind f).run signal s = _
  induction p generalizing s with
  | ret a => rfl
  | fault e => rfl
  | lock p q ihp ihq => cases signal <;> simp [bind, run, ihp, ihq]
  | unlock p ih => simp [bind, run, ih]
  | act u k ih => simp [bind, run, ih]

theorem run_bind_ok {p : Code σ ε α} {f : α → Code σ ε β} {a : α}
    (h : p.run signal s = (.ok a, t)) : (p >>= f).run signal s = (f a).run signal t := by
  rw [run_bind, h]

theorem run_bind_error {p : Code σ ε α} {f : α → Code σ ε β} {e : ε}
    (h : p.run signal s = (.error e, t)) : (p >>= f).run signal s = (.error e, t) := by
  rw [run_bind, h]

/-- What a run returned, put back together with the state it left. -/
theorem run_eq_of_fst {run : Except ε α × σ} {r : Except ε α} (h : run.1 = r) :
    run = (r, run.2) := by
  rw [← h]

/-- A sequence that returned did so in both of its parts. -/
theorem run_bind_eq_ok {p : Code σ ε α} {f : α → Code σ ε β} {b : β}
    (h : (p >>= f).run signal s = (.ok b, t)) :
    ∃ a s', p.run signal s = (.ok a, s') ∧ (f a).run signal s' = (.ok b, t) := by
  rw [run_bind] at h
  cases hp : p.run signal s with
  | mk r s' =>
    rw [hp] at h
    cases r with
    | error e => simp at h
    | ok a => exact ⟨a, s', rfl, h⟩

section Locked

/-- How a run ends that keeps account of the lock, and the state it leaves. It may
also come to wait for a lock that nobody gives back. -/
inductive Ending (σ ε α : Type) where
  | returned (a : α) (held : Bool) (s : σ)
  | faulted (e : ε) (s : σ)
  | blocked (s : σ)

def Ending.state : Ending σ ε α → σ
  | returned _ _ s => s
  | faulted _ s => s
  | blocked s => s

/-- A run with nobody else around and no signal. Who has the lock already waits for
it in vain. -/
def runLocked (held : Bool) : Code σ ε α → σ → Ending σ ε α
  | ret a, s => .returned a held s
  | fault e, s => .faulted e s
  | lock p _, s => if held then .blocked s else p.runLocked true s
  | unlock p, s => p.runLocked false s
  | act u k, s => (k s).runLocked held (u s)

variable {held : Bool}

theorem runLocked_bind (p : Code σ ε α) (f : α → Code σ ε β) :
    (p >>= f).runLocked held s = match p.runLocked held s with
      | .returned a held' t => (f a).runLocked held' t
      | .faulted e t => .faulted e t
      | .blocked t => .blocked t := by
  change (p.bind f).runLocked held s = _
  induction p generalizing held s with
  | ret a => rfl
  | fault e => rfl
  | lock p q ihp _ => cases held <;> simp [bind, runLocked, ihp]
  | unlock p ih => simp [bind, runLocked, ih]
  | act u k ih => simp [bind, runLocked, ih]

theorem runLocked_call_ok {f : σ → Except ε α × σ} {a : α} (h : f s = (.ok a, t)) :
    (call f).runLocked held s = .returned a held t := by
  simp [call, runLocked, h]

theorem runLocked_call_error {f : σ → Except ε α × σ} {e : ε} (h : f s = (.error e, t)) :
    (call f).runLocked held s = .faulted e t := by
  simp [call, runLocked, h]

/-- The lock is free for who does not have it. -/
theorem runLocked_lock (f : Bool → Code σ ε β) :
    (lockInterruptible >>= f).runLocked false s = (f false).runLocked true s := rfl

theorem runLocked_lock_held (f : Bool → Code σ ε β) :
    (lockInterruptible >>= f).runLocked true s = .blocked s := rfl

theorem runLocked_release (f : Unit → Code σ ε β) :
    (release >>= f).runLocked held s = (f ()).runLocked false s := rfl

end Locked

section Measure

/-- No step lowers `m`. -/
def Grows (m : σ → Nat) : Code σ ε α → Prop
  | ret _ => True
  | fault _ => True
  | lock p q => Grows m p ∧ Grows m q
  | unlock p => Grows m p
  | act u k => ∀ s, m s ≤ m (u s) ∧ Grows m (k s)

variable {m : σ → Nat}

theorem Grows.bind {p : Code σ ε α} {f : α → Code σ ε β} (hp : Grows m p)
    (hf : ∀ a, Grows m (f a)) : Grows m (p >>= f) := by
  change Grows m (p.bind f)
  induction p with
  | ret a => exact hf a
  | fault e => trivial
  | lock p q ihp ihq => exact ⟨ihp hp.1, ihq hp.2⟩
  | unlock p ih => exact ih hp
  | act u k ih => exact fun s => ⟨(hp s).1, ih s (hp s).2⟩

theorem Grows.run {p : Code σ ε α} (hp : Grows m p) (signal : Bool) (s : σ) :
    m s ≤ m (p.run signal s).2 := by
  induction p generalizing s with
  | ret a => exact Nat.le_refl _
  | fault e => exact Nat.le_refl _
  | lock p q ihp ihq =>
    cases signal
    · exact ihp hp.1 s
    · exact ihq hp.2 s
  | unlock p ih => exact ih hp s
  | act u k ih => exact Nat.le_trans (hp s).1 (ih s (hp s).2 (u s))

theorem Grows.left {p : Code σ ε α} {f : α → Code σ ε β} (h : Grows m (p >>= f)) : Grows m p := by
  change Grows m (p.bind f) at h
  induction p with
  | ret a => trivial
  | fault e => trivial
  | lock p q ihp ihq => exact ⟨ihp h.1, ihq h.2⟩
  | unlock p ih => exact ih h
  | act u k ih => exact fun s => ⟨(h s).1, ih s (h s).2⟩

theorem Grows.right {p : Code σ ε α} {f : α → Code σ ε β} {a : α} (h : Grows m (p >>= f))
    (hrun : p.run signal s = (.ok a, t)) : Grows m (f a) := by
  change Grows m (p.bind f) at h
  induction p generalizing s with
  | ret b =>
    obtain ⟨rfl, _⟩ : b = a ∧ s = t := by simpa [Code.run] using hrun
    exact h
  | fault e => simp [Code.run] at hrun
  | lock p q ihp ihq =>
    cases signal
    · exact ihp hrun h.1
    · exact ihq hrun h.2
  | unlock p ih => exact ih hrun h
  | act u k ih => exact ih s hrun (h s).2

theorem grows_lockInterruptible : Grows m (lockInterruptible : Code σ ε Bool) := ⟨trivial, trivial⟩

theorem grows_release : Grows m (release : Code σ ε Unit) := trivial

theorem grows_ofExcept (r : Except ε α) : Grows m (ofExcept r : Code σ ε α) := by
  cases r <;> trivial

theorem grows_call {f : σ → Except ε α × σ} (h : ∀ s, m s ≤ m (f s).2) : Grows m (call f) := by
  intro s
  refine ⟨h s, ?_⟩
  dsimp only
  split <;> trivial

/-- A run on its own either raises `m` or returns with `Q`. -/
def Ensures (m : σ → Nat) (p : Code σ ε α) (s : σ) (Q : α → σ → Prop) : Prop :=
  m (p.run false s).2 = m s → ∃ a t, p.run false s = (.ok a, t) ∧ Q a t

theorem ensures_pure {Q : α → σ → Prop} {a : α} (h : Q a s) :
    Ensures m (pure a : Code σ ε α) s Q := fun _ => ⟨a, s, rfl, h⟩

theorem ensures_call {Q : α → σ → Prop} {f : σ → Except ε α × σ}
    (h : m (f s).2 = m s → ∃ a t, f s = (.ok a, t) ∧ Q a t) : Ensures m (call f) s Q := by
  intro hquiet
  rw [run_call] at hquiet ⊢
  exact h hquiet

/-- What was not raised in the end was not raised on the way. -/
theorem Ensures.bind {Q : α → σ → Prop} {R : β → σ → Prop} {p : Code σ ε α} {f : α → Code σ ε β}
    (hp : Ensures m p s Q) (hg : Grows m (p >>= f))
    (hf : ∀ a t, Grows m (f a) → m t = m s → Q a t → Ensures m (f a) t R) :
    Ensures m (p >>= f) s R := by
  intro hquiet
  have hle := hg.left.run false s
  cases hrun : p.run false s with
  | mk r t =>
    rw [hrun] at hle
    rw [run_bind, hrun] at hquiet ⊢
    cases r with
    | error e =>
      obtain ⟨a, u, hok, _⟩ := hp (by rw [hrun]; exact hquiet)
      rw [hrun] at hok
      cases hok
    | ok a =>
      have hga := hg.right hrun
      have hle' := hga.run false t
      dsimp only at hquiet hle ⊢
      have ht : m t = m s := by omega
      obtain ⟨a', t', hok, hQ⟩ := hp (by rw [hrun]; exact ht)
      rw [hrun] at hok
      obtain ⟨rfl, rfl⟩ : a = a' ∧ t = t' := by simpa using hok
      exact hf a t hga ht hQ (by omega)

/-- A step that is known to succeed. -/
theorem Ensures.step {R : β → σ → Prop} {g : σ → Except ε α × σ} {f : α → Code σ ε β} {a : α}
    (h : g s = (.ok a, t)) (ht : m t = m s) (hf : Ensures m (f a) t R) :
    Ensures m (call g >>= f) s R := by
  intro hquiet
  rw [run_bind, run_call, h] at hquiet ⊢
  exact hf (hquiet.trans ht.symm)

theorem Ensures.lock {R : β → σ → Prop} {f : Bool → Code σ ε β} (hf : Ensures m (f false) s R) :
    Ensures m (lockInterruptible >>= f) s R := hf

theorem Ensures.release {R : β → σ → Prop} {f : Unit → Code σ ε β} (hf : Ensures m (f ()) s R) :
    Ensures m (Code.release >>= f) s R := hf

theorem Ensures.imp {Q R : α → σ → Prop} {p : Code σ ε α} (hp : Ensures m p s Q)
    (h : ∀ a t, m t = m s → Q a t → R a t) : Ensures m p s R := by
  intro hquiet
  obtain ⟨a, t, hrun, hQ⟩ := hp hquiet
  rw [hrun] at hquiet
  exact ⟨a, t, hrun, h a t hquiet hQ⟩

/-- The code does not touch the lock, and no step lowers `m`. -/
def Inner (m : σ → Nat) : Code σ ε α → Prop
  | ret _ => True
  | fault _ => True
  | lock _ _ => False
  | unlock _ => False
  | act u k => ∀ s, m s ≤ m (u s) ∧ Inner m (k s)

theorem Inner.grows {p : Code σ ε α} (hp : Inner m p) : Grows m p := by
  induction p with
  | ret a => trivial
  | fault e => trivial
  | lock p q => exact hp.elim
  | unlock p => exact hp.elim
  | act u k ih => exact fun s => ⟨(hp s).1, ih s (hp s).2⟩

theorem Inner.bind {p : Code σ ε α} {f : α → Code σ ε β} (hp : Inner m p)
    (hf : ∀ a, Inner m (f a)) : Inner m (p >>= f) := by
  change Inner m (p.bind f)
  induction p with
  | ret a => exact hf a
  | fault e => trivial
  | lock p q => exact hp.elim
  | unlock p => exact hp.elim
  | act u k ih => exact fun s => ⟨(hp s).1, ih s (hp s).2⟩

theorem inner_pure (a : α) : Inner m (pure a : Code σ ε α) := trivial

theorem inner_exec {f : σ → Except ε (α × σ)} (h : ∀ s a t, f s = .ok (a, t) → m s ≤ m t) :
    Inner m (exec f) := by
  intro s
  dsimp only
  cases hf : f s with
  | ok r => exact ⟨h s r.1 r.2 hf, trivial⟩
  | error e => exact ⟨Nat.le_refl _, trivial⟩

theorem inner_get : Inner m (get : Code σ ε σ) := fun _ => ⟨Nat.le_refl _, trivial⟩

theorem inner_modify {f : σ → σ} (h : ∀ s, m s ≤ m (f s)) :
    Inner m (modify f : Code σ ε Unit) := fun s => ⟨h s, trivial⟩

end Measure

end Code

end Aesd.Base
