import Aesd.Base.Atomic

namespace Aesd.Base

namespace Code
variable {σ τ ε α β : Type}

/-- The code is at its end after at most `n` steps, whatever it meets on the way. -/
def Within : Nat → Code σ ε α → Prop
  | _, ret _ => True
  | _, fault _ => True
  | n, lock p q => ∃ m, n = m + 1 ∧ Within m p ∧ Within m q
  | n, unlock p => ∃ m, n = m + 1 ∧ Within m p
  | n, act _ k => ∃ m, n = m + 1 ∧ ∀ s, Within m (k s)

variable {m n : Nat}

theorem Within.mono {p : Code σ ε α} (hp : Within n p) (hle : n ≤ m) : Within m p := by
  induction p generalizing m n with
  | ret a => trivial
  | fault e => trivial
  | lock p q ihp ihq =>
    obtain ⟨n, rfl, h₁, h₂⟩ := hp
    obtain ⟨m, rfl⟩ := Nat.exists_eq_succ_of_ne_zero (Nat.ne_of_gt (Nat.zero_lt_of_lt hle))
    exact ⟨m, rfl, ihp h₁ (Nat.le_of_succ_le_succ hle), ihq h₂ (Nat.le_of_succ_le_succ hle)⟩
  | unlock p ih =>
    obtain ⟨n, rfl, h₁⟩ := hp
    obtain ⟨m, rfl⟩ := Nat.exists_eq_succ_of_ne_zero (Nat.ne_of_gt (Nat.zero_lt_of_lt hle))
    exact ⟨m, rfl, ih h₁ (Nat.le_of_succ_le_succ hle)⟩
  | act u k ih =>
    obtain ⟨n, rfl, h₁⟩ := hp
    obtain ⟨m, rfl⟩ := Nat.exists_eq_succ_of_ne_zero (Nat.ne_of_gt (Nat.zero_lt_of_lt hle))
    exact ⟨m, rfl, fun s => ih s (h₁ s) (Nat.le_of_succ_le_succ hle)⟩

theorem Within.bind {p : Code σ ε α} {f : α → Code σ ε β} (hp : Within n p)
    (hf : ∀ a, Within m (f a)) : Within (n + m) (p >>= f) := by
  change Within (n + m) (p.bind f)
  induction p generalizing n with
  | ret a => exact (hf a).mono (Nat.le_add_left _ _)
  | fault e => trivial
  | lock p q ihp ihq =>
    obtain ⟨n, rfl, h₁, h₂⟩ := hp
    exact ⟨n + m, Nat.succ_add n m, ihp h₁, ihq h₂⟩
  | unlock p ih =>
    obtain ⟨n, rfl, h₁⟩ := hp
    exact ⟨n + m, Nat.succ_add n m, ih h₁⟩
  | act u k ih =>
    obtain ⟨n, rfl, h₁⟩ := hp
    exact ⟨n + m, Nat.succ_add n m, fun s => ih s (h₁ s)⟩

theorem within_pure (a : α) : Within 0 (pure a : Code σ ε α) := trivial

theorem within_exec (f : σ → Except ε (α × σ)) : Within 1 (exec f) := by
  refine ⟨0, rfl, fun s => ?_⟩
  dsimp only
  split <;> trivial

theorem within_get : Within 1 (get : Code σ ε σ) := ⟨0, rfl, fun _ => trivial⟩

theorem within_modify (f : σ → σ) : Within 1 (modify f : Code σ ε Unit) :=
  ⟨0, rfl, fun _ => trivial⟩

theorem within_lock : Within 1 (lockInterruptible : Code σ ε Bool) := ⟨0, rfl, trivial, trivial⟩

theorem within_release : Within 1 (release : Code σ ε Unit) := ⟨0, rfl, trivial⟩

theorem within_getOwn : Within 1 (getOwn : Code (σ × τ) ε τ) := ⟨0, rfl, fun _ => trivial⟩

theorem within_setOwn (f : τ → τ) : Within 1 (setOwn f : Code (σ × τ) ε Unit) :=
  ⟨0, rfl, fun _ => trivial⟩

theorem Within.onShared {p : Code σ ε α} (hp : Within n p) :
    Within n (p.onShared : Code (σ × τ) ε α) := by
  induction p generalizing n with
  | ret a => trivial
  | fault e => trivial
  | lock p q ihp ihq =>
    obtain ⟨n, rfl, h₁, h₂⟩ := hp
    exact ⟨n, rfl, ihp h₁, ihq h₂⟩
  | unlock p ih =>
    obtain ⟨n, rfl, h₁⟩ := hp
    exact ⟨n, rfl, ih h₁⟩
  | act u k ih =>
    obtain ⟨n, rfl, h₁⟩ := hp
    exact ⟨n, rfl, fun s => ih s.1 (h₁ s.1)⟩

theorem Within.focus {ι : Type} [DecidableEq ι] {p : Code (σ × τ) ε α} (hp : Within n p) (i : ι) :
    Within n (p.focus i) := by
  induction p generalizing n with
  | ret a => trivial
  | fault e => trivial
  | lock p q ihp ihq =>
    obtain ⟨n, rfl, h₁, h₂⟩ := hp
    exact ⟨n, rfl, ihp h₁, ihq h₂⟩
  | unlock p ih =>
    obtain ⟨n, rfl, h₁⟩ := hp
    exact ⟨n, rfl, ih h₁⟩
  | act u k ih =>
    obtain ⟨n, rfl, h₁⟩ := hp
    exact ⟨n, rfl, fun s => ih _ (h₁ _)⟩

end Code

namespace System
variable {ι κ σ ε : Type} [DecidableEq ι]

/-- The steps that task `i` has taken. -/
def stepsOf (i : ι) (es : List (Event ι κ)) : Nat := es.countP (fun e => e.task = i)

/-- The calls that task `i` has made. -/
def callsOf (i : ι) (es : List (Event ι κ)) : Nat :=
  es.countP (fun e => decide (e.task = i) && decide (e.kind = .invoke))

section Bounded
variable {n : Nat} {es : List (Event ι κ)} {e : Event ι κ} {s s' : System ι κ σ ε} {i : ι}
  {code : κ → Code σ ε Unit}

/-- What a task may still do is paid for by its calls: `n` steps for each of them,
and one to start and one to end it. -/
def Paid (n : Nat) (i : ι) (es : List (Event ι κ)) : Option (Task κ σ ε) → Prop
  | none => stepsOf i es ≤ (n + 2) * callsOf i es
  | some t => ∃ r, t.rest.Within r ∧ stepsOf i es + r + 1 ≤ (n + 2) * callsOf i es

theorem Paid.others {t : Option (Task κ σ ε)} (h : Paid n i es t) (hi : e.task ≠ i) :
    Paid n i (es ++ [e]) t := by
  have hsteps : stepsOf i (es ++ [e]) = stepsOf i es := by simp [stepsOf, hi]
  have hcalls : callsOf i (es ++ [e]) = callsOf i es := by simp [callsOf, hi]
  cases t with
  | none =>
    change stepsOf i (es ++ [e]) ≤ (n + 2) * callsOf i (es ++ [e])
    rw [hsteps, hcalls]
    exact h
  | some t =>
    obtain ⟨r, hr, hle⟩ := h
    exact ⟨r, hr, by rw [hsteps, hcalls]; exact hle⟩

/-- A step of a call in progress uses up one of the steps it had left. -/
theorem Paid.step {c : κ} {p : Code σ ε Unit} {t : Task κ σ ε} (h : Paid n i es (some t))
    (hrest : ∀ r, t.rest.Within r → ∃ r', r = r' + 1 ∧ p.Within r') {kind : Kind}
    (hkind : kind ≠ .invoke) : Paid n i (es ++ [⟨kind, i, c⟩]) (some ⟨c, p⟩) := by
  obtain ⟨r, hr, hle⟩ := h
  obtain ⟨r', rfl, hp⟩ := hrest r hr
  have hsteps : stepsOf i (es ++ [⟨kind, i, c⟩]) = stepsOf i es + 1 := by simp [stepsOf]
  have hcalls : callsOf i (es ++ [⟨kind, i, c⟩]) = callsOf i es := by simp [callsOf, hkind]
  refine ⟨r', hp, ?_⟩
  rw [hsteps, hcalls]
  omega

theorem Paid.invoke {c : κ} {p : Code σ ε Unit} (h : Paid n i es (none : Option (Task κ σ ε)))
    (hp : p.Within n) : Paid n i (es ++ [⟨.invoke, i, c⟩]) (some ⟨c, p⟩) := by
  have hle : stepsOf i es ≤ (n + 2) * callsOf i es := h
  have hsteps : stepsOf i (es ++ [⟨.invoke, i, c⟩]) = stepsOf i es + 1 := by simp [stepsOf]
  have hcalls : callsOf i (es ++ [⟨.invoke, i, c⟩]) = callsOf i es + 1 := by simp [callsOf]
  refine ⟨n, hp, ?_⟩
  rw [hsteps, hcalls, Nat.mul_succ]
  omega

theorem Paid.finish {c : κ} {t : Task κ σ ε} (h : Paid n i es (some t)) :
    Paid n i (es ++ [⟨.finish, i, c⟩]) (none : Option (Task κ σ ε)) := by
  obtain ⟨r, _, hle⟩ := h
  have hsteps : stepsOf i (es ++ [⟨.finish, i, c⟩]) = stepsOf i es + 1 := by simp [stepsOf]
  have hcalls : callsOf i (es ++ [⟨.finish, i, c⟩]) = callsOf i es := by simp [callsOf]
  change stepsOf i (es ++ [⟨.finish, i, c⟩]) ≤ (n + 2) * callsOf i (es ++ [⟨.finish, i, c⟩])
  rw [hsteps, hcalls]
  omega

theorem Step.paid (h : Step code s e s') (hcode : e.kind = .invoke → (code e.call).Within n)
    (hs : ∀ i, Paid n i es (s.tasks i)) (i : ι) : Paid n i (es ++ [e]) (s'.tasks i) := by
  by_cases hi : i = e.task
  · have htask := hs i
    subst hi
    cases h with
    | invoke c h =>
      rw [h] at htask
      simpa [goto] using htask.invoke (c := c) (hcode rfl)
    | acquire h | interrupt h =>
      rw [h] at htask
      simp only [goto, Function.update_self]
      refine htask.step (fun r hr => ?_) (by simp)
      obtain ⟨r', rfl, hp, hq⟩ := hr
      exact ⟨r', rfl, ‹_›⟩
    | unlock h =>
      rw [h] at htask
      simp only [goto, Function.update_self]
      exact htask.step (fun r hr => hr) (by simp)
    | act h =>
      rw [h] at htask
      simp only [goto, Function.update_self]
      refine htask.step (fun r hr => ?_) (by simp)
      obtain ⟨r', rfl, hk⟩ := hr
      exact ⟨r', rfl, hk s.mem⟩
    | finish h =>
      rw [h] at htask
      simpa [goto] using htask.finish
  · have hsame : s'.tasks i = s.tasks i := by
      cases h <;> exact Function.update_of_ne hi _ _
    rw [hsame]
    exact (hs i).others (Ne.symm hi)

/-- No task takes more steps than its calls account for, so none goes on for ever. -/
theorem Log.steps_le {Allowed : Event ι κ → Prop} {mem : σ}
    (hlog : Log code Allowed (.start mem) es s)
    (hcode : ∀ e, Allowed e → e.kind = .invoke → (code e.call).Within n) (i : ι) :
    stepsOf i es ≤ (n + 2) * callsOf i es := by
  have hpaid : ∀ i, Paid n i es (s.tasks i) := by
    induction hlog with
    | start =>
      intro i
      change stepsOf i ([] : List (Event ι κ)) ≤ _
      simp [stepsOf]
    | step _ he h ih => exact h.paid (hcode _ he) ih
  have hi := hpaid i
  cases ht : s.tasks i with
  | none =>
    rw [ht] at hi
    exact hi
  | some t =>
    rw [ht] at hi
    obtain ⟨r, _, hle⟩ := hi
    omega

end Bounded

section Progress
variable {τ : Type} {body : κ → Code (σ × τ) ε Unit} {intr : κ → Bool} {I : σ → Prop} {R : Prop}
  {es : List (Event ι (ι × κ))} {m : σ × (ι → τ)} {s : System ι (ι × κ) (σ × (ι → τ)) ε}

/-- Some call in progress can go on by itself, without a new call or a signal. -/
def CanStep (body : κ → Code (σ × τ) ε Unit) (s : System ι (ι × κ) (σ × (ι → τ)) ε) : Prop :=
  ∃ e s', e.kind ≠ .invoke ∧ e.kind ≠ .interrupt ∧ Step (ofTask body) s e s'

/-- The owner of the lock can go on, unless it has come to a fault. -/
theorem Serial.owner_steps (hs : Serial body intr I R es s m) {i : ι} (howner : s.owner = some i) :
    CanStep body s ∨ ∃ c err, s.tasks i = some ⟨c, .fault err⟩ := by
  have htask := hs.tasks i
  cases ht : s.tasks i with
  | none =>
    rw [ht] at htask
    exact absurd howner htask.2.1
  | some t =>
    rw [ht] at htask
    obtain ⟨c, rest⟩ := t
    obtain ⟨_, ph, p, hrest, hp, hph, _⟩ := htask
    obtain rfl := hph.mp howner
    dsimp only at hrest
    subst hrest
    cases p with
    | ret => cases hp
    | fault err => exact Or.inr ⟨c, err, rfl⟩
    | lock => cases hp.1
    | unlock p => exact Or.inl ⟨_, _, by simp, by simp, .unlock ht⟩
    | act u k => exact Or.inl ⟨_, _, by simp, by simp, .act ht⟩

/-- With the lock free every call in progress can go on. -/
theorem Serial.free_steps (hs : Serial body intr I R es s m) (hfree : s.owner = none) {i : ι}
    {t : Task (ι × κ) (σ × (ι → τ)) ε} (ht : s.tasks i = some t) : CanStep body s := by
  have htask := hs.tasks i
  rw [ht] at htask
  obtain ⟨c, rest⟩ := t
  obtain ⟨_, ph, p, hrest, hp, hph, _⟩ := htask
  have hout : ph ≠ .inside := fun hin => by simpa [hfree] using hph.mpr hin
  dsimp only at hrest
  subst hrest
  cases p with
  | ret => exact ⟨_, _, by simp, by simp, .finish ht⟩
  | fault err => exact absurd hp hout
  | lock p q => exact ⟨_, _, by simp, by simp, .acquire ht hfree⟩
  | unlock p => exact absurd hp.1 hout
  | act u k => exact ⟨_, _, by simp, by simp, .act ht⟩

/-- Nobody waits for ever: as long as calls are in progress one of them can go on,
unless one has come to a fault with the lock. -/
theorem Serial.progress (hs : Serial body intr I R es s m) {i : ι} (hbusy : s.tasks i ≠ none) :
    CanStep body s ∨ ∃ j c err, s.owner = some j ∧ s.tasks j = some ⟨c, .fault err⟩ := by
  cases howner : s.owner with
  | none =>
    obtain ⟨t, ht⟩ := Option.ne_none_iff_exists'.mp hbusy
    exact Or.inl (hs.free_steps howner ht)
  | some j =>
    refine (hs.owner_steps howner).imp_right ?_
    intro ⟨c, err, hfault⟩
    exact ⟨j, c, err, rfl, hfault⟩

end Progress

end System

end Aesd.Base
