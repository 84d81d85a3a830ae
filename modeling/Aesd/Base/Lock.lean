import Aesd.Base.Code
import Mathlib.Logic.Function.Basic

namespace Aesd.Base

/-- A call in progress: which one it is and what is left of it. -/
structure Task (κ σ ε : Type) where
  call : κ
  rest : Code σ ε Unit

/-- Tasks that share a state and one lock. `owner` is who acquired the lock
last, until anybody gives it back; `inside` says who has acquired it and not
given it back since. -/
structure System (ι κ σ ε : Type) where
  mem : σ
  owner : Option ι
  inside : ι → Bool
  tasks : ι → Option (Task κ σ ε)

inductive Kind where
  | invoke
  | acquire
  | interrupt
  | unlock
  | act
  | finish
  deriving DecidableEq

structure Event (ι κ : Type) where
  kind : Kind
  task : ι
  call : κ

namespace System
variable {ι κ σ ε : Type} [DecidableEq ι]

/-- Nothing has been called yet. -/
def start (mem : σ) : System ι κ σ ε := ⟨mem, none, fun _ => false, fun _ => none⟩

def goto (s : System ι κ σ ε) (i : ι) (t : Option (Task κ σ ε)) : System ι κ σ ε :=
  { s with tasks := Function.update s.tasks i t }

/-- One step of one task. The lock can only be acquired when it is free, but
giving it back frees it, whoever does so. -/
inductive Step (code : κ → Code σ ε Unit) :
    System ι κ σ ε → Event ι κ → System ι κ σ ε → Prop
  | invoke {s : System ι κ σ ε} {i : ι} (c : κ) (h : s.tasks i = none) :
      Step code s ⟨.invoke, i, c⟩ (s.goto i (some ⟨c, code c⟩))
  | acquire {s : System ι κ σ ε} {i : ι} {c : κ} {p q : Code σ ε Unit}
      (h : s.tasks i = some ⟨c, .lock p q⟩) (hfree : s.owner = none) :
      Step code s ⟨.acquire, i, c⟩
        { s.goto i (some ⟨c, p⟩) with
          owner := some i, inside := Function.update s.inside i true }
  | interrupt {s : System ι κ σ ε} {i : ι} {c : κ} {p q : Code σ ε Unit}
      (h : s.tasks i = some ⟨c, .lock p q⟩) :
      Step code s ⟨.interrupt, i, c⟩ (s.goto i (some ⟨c, q⟩))
  | unlock {s : System ι κ σ ε} {i : ι} {c : κ} {p : Code σ ε Unit}
      (h : s.tasks i = some ⟨c, .unlock p⟩) :
      Step code s ⟨.unlock, i, c⟩
        { s.goto i (some ⟨c, p⟩) with
          owner := none, inside := Function.update s.inside i false }
  | act {s : System ι κ σ ε} {i : ι} {c : κ} {u : σ → σ} {k : σ → Code σ ε Unit}
      (h : s.tasks i = some ⟨c, .act u k⟩) :
      Step code s ⟨.act, i, c⟩ { s.goto i (some ⟨c, k s.mem⟩) with mem := u s.mem }
  | finish {s : System ι κ σ ε} {i : ι} {c : κ} (h : s.tasks i = some ⟨c, .ret ()⟩) :
      Step code s ⟨.finish, i, c⟩ (s.goto i none)

/-- States that steps of the allowed kinds lead to. -/
inductive Reaches (code : κ → Code σ ε Unit) (Allowed : Event ι κ → Prop)
    (s₀ : System ι κ σ ε) : System ι κ σ ε → Prop
  | refl : Reaches code Allowed s₀ s₀
  | step {s s' : System ι κ σ ε} {e : Event ι κ} (hs : Reaches code Allowed s₀ s)
      (he : Allowed e) (h : Step code s e s') : Reaches code Allowed s₀ s'

theorem Reaches.invariant {code : κ → Code σ ε Unit} {Allowed : Event ι κ → Prop}
    {s₀ s : System ι κ σ ε} {P : System ι κ σ ε → Prop} (h0 : P s₀)
    (hstep : ∀ s e s', P s → Allowed e → Step code s e s' → P s')
    (hs : Reaches code Allowed s₀ s) : P s := by
  induction hs with
  | refl => exact h0
  | step _ he h ih => exact hstep _ _ _ ih he h

/-- What a scheduler can ask of a task: to start a call, to take its next step, or
to be interrupted while it waits for the lock. -/
inductive Choice (κ : Type) where
  | call (c : κ)
  | go
  | interrupt

/-- The step that a scheduler's choice leads to, if the task can take it. -/
def next (code : κ → Code σ ε Unit) (s : System ι κ σ ε) (i : ι) :
    Choice κ → Option (Event ι κ × System ι κ σ ε)
  | .call c =>
    match s.tasks i with
    | none => some (⟨.invoke, i, c⟩, s.goto i (some ⟨c, code c⟩))
    | some _ => none
  | .interrupt =>
    match s.tasks i with
    | some ⟨c, .lock _ q⟩ => some (⟨.interrupt, i, c⟩, s.goto i (some ⟨c, q⟩))
    | _ => none
  | .go =>
    match s.tasks i with
    | some ⟨c, .lock p _⟩ =>
      match s.owner with
      | none => some (⟨.acquire, i, c⟩, { s.goto i (some ⟨c, p⟩) with
          owner := some i, inside := Function.update s.inside i true })
      | some _ => none
    | some ⟨c, .unlock p⟩ => some (⟨.unlock, i, c⟩, { s.goto i (some ⟨c, p⟩) with
          owner := none, inside := Function.update s.inside i false })
    | some ⟨c, .act u k⟩ =>
      some (⟨.act, i, c⟩, { s.goto i (some ⟨c, k s.mem⟩) with mem := u s.mem })
    | some ⟨c, .ret ()⟩ => some (⟨.finish, i, c⟩, s.goto i none)
    | _ => none

theorem step_of_next {code : κ → Code σ ε Unit} {s s' : System ι κ σ ε} {i : ι} {ch : Choice κ}
    {e : Event ι κ} (h : next code s i ch = some (e, s')) : Step code s e s' := by
  cases ch with
  | call c =>
    simp only [next] at h
    split at h
    · obtain ⟨rfl, rfl⟩ := Prod.mk.inj (Option.some.inj h)
      exact .invoke c ‹_›
    · cases h
  | interrupt =>
    simp only [next] at h
    split at h
    · obtain ⟨rfl, rfl⟩ := Prod.mk.inj (Option.some.inj h)
      exact .interrupt ‹_›
    · cases h
  | go =>
    simp only [next] at h
    split at h
    · split at h
      · obtain ⟨rfl, rfl⟩ := Prod.mk.inj (Option.some.inj h)
        exact .acquire ‹_› ‹_›
      · cases h
    · obtain ⟨rfl, rfl⟩ := Prod.mk.inj (Option.some.inj h)
      exact .unlock ‹_›
    · obtain ⟨rfl, rfl⟩ := Prod.mk.inj (Option.some.inj h)
      exact .act ‹_›
    · obtain ⟨rfl, rfl⟩ := Prod.mk.inj (Option.some.inj h)
      exact .finish ‹_›
    · cases h

/-- The state that a schedule leads to. -/
def exec (code : κ → Code σ ε Unit) (s : System ι κ σ ε) :
    List (ι × Choice κ) → Option (System ι κ σ ε)
  | [] => some s
  | (i, ch) :: schedule =>
    match next code s i ch with
    | some (_, s') => exec code s' schedule
    | none => none

theorem Reaches.exec {code : κ → Code σ ε Unit} {Allowed : Event ι κ → Prop}
    {s₀ s s' : System ι κ σ ε} (hs : Reaches code Allowed s₀ s) (schedule : List (ι × Choice κ))
    (hall : ∀ s c e s', c ∈ schedule → next code s c.1 c.2 = some (e, s') → Allowed e)
    (h : System.exec code s schedule = some s') : Reaches code Allowed s₀ s' := by
  induction schedule generalizing s with
  | nil =>
    obtain rfl : s = s' := Option.some.inj h
    exact hs
  | cons c schedule ih =>
    simp only [System.exec] at h
    split at h
    · rename_i e s₁ hnext
      exact ih (hs.step (hall s c e s₁ List.mem_cons_self hnext) (step_of_next hnext))
        (fun s c e s' hc => hall s c e s' (List.mem_cons_of_mem _ hc)) h
    · cases h

/-- A task that takes its next step starts no call. -/
theorem not_invoke_of_next {code : κ → Code σ ε Unit} {s s' : System ι κ σ ε} {i : ι}
    {e : Event ι κ} (h : next code s i .go = some (e, s')) : e.kind ≠ .invoke := by
  simp only [next] at h
  split at h
  · split at h
    · obtain ⟨rfl, _⟩ := Prod.mk.inj (Option.some.inj h)
      simp
    · cases h
  · obtain ⟨rfl, _⟩ := Prod.mk.inj (Option.some.inj h)
    simp
  · obtain ⟨rfl, _⟩ := Prod.mk.inj (Option.some.inj h)
    simp
  · obtain ⟨rfl, _⟩ := Prod.mk.inj (Option.some.inj h)
    simp
  · cases h

end System

namespace Code
variable {σ ε α β : Type}

/-- The code asks for the lock only when it does not have it and gives it back
only when it has. `held` says whether it has it at the start, `Q` what is known
of that at the end. With `intr` false, no wait for the lock is interrupted. -/
def Brackets (intr : Bool) (Q : Bool → α → Prop) : Bool → Code σ ε α → Prop
  | held, ret a => Q held a
  | _, fault _ => True
  | held, lock p q => held = false ∧ Brackets intr Q true p ∧
      (intr = true → Brackets intr Q false q)
  | held, unlock p => held = true ∧ Brackets intr Q false p
  | held, act _ k => ∀ s, Brackets intr Q held (k s)

variable {intr held : Bool}

theorem Brackets.bind {Q : Bool → α → Prop} {R : Bool → β → Prop} {p : Code σ ε α}
    {f : α → Code σ ε β} (hp : Brackets intr Q held p)
    (hf : ∀ held a, Q held a → Brackets intr R held (f a)) : Brackets intr R held (p >>= f) := by
  change Brackets intr R held (p.bind f)
  induction p generalizing held with
  | ret a => exact hf held a hp
  | fault e => trivial
  | lock p q ihp ihq => exact ⟨hp.1, ihp hp.2.1, fun hi => ihq (hp.2.2 hi)⟩
  | unlock p ih => exact ⟨hp.1, ih hp.2⟩
  | act u k ih => exact fun s => ih s (hp s)

/-- Code that does not touch the lock may stand anywhere. -/
theorem Inner.brackets {m : σ → Nat} {R : Bool → β → Prop} {p : Code σ ε α} {f : α → Code σ ε β}
    (hp : Inner m p) (hf : ∀ a, Brackets intr R held (f a)) :
    Brackets intr R held (p >>= f) := by
  change Brackets intr R held (p.bind f)
  induction p with
  | ret a => exact hf a
  | fault e => trivial
  | lock p q => exact hp.elim
  | unlock p => exact hp.elim
  | act u k ih => exact fun s => ih s (hp s).2

theorem brackets_lockInterruptible :
    Brackets intr (fun h interrupted => h = !interrupted) false
      (lockInterruptible : Code σ ε Bool) :=
  ⟨rfl, rfl, fun _ => rfl⟩

/-- Without interruptions the wait always ends with the lock. -/
theorem brackets_lock_uninterrupted :
    Brackets false (fun h interrupted => h = true ∧ interrupted = false) false
      (lockInterruptible : Code σ ε Bool) :=
  ⟨rfl, ⟨rfl, rfl⟩, fun h => by simp at h⟩

theorem brackets_release :
    Brackets intr (fun h _ => h = false) true (release : Code σ ε Unit) := ⟨rfl, rfl⟩

end Code

namespace System
variable {ι κ σ ε : Type}

/-- Every task keeps to its brackets, and who is inside is who owns the lock. -/
structure Orderly (intr : κ → Bool) (s : System ι κ σ ε) : Prop where
  owner : ∀ i, s.inside i = true ↔ s.owner = some i
  running : ∀ i t, s.tasks i = some t →
    t.rest.Brackets (intr t.call) (fun held _ => held = false) (s.inside i)
  idle : ∀ i, s.tasks i = none → s.inside i = false

theorem orderly_start (intr : κ → Bool) (mem : σ) :
    Orderly intr (start mem : System ι κ σ ε) := by
  refine ⟨?_, ?_, ?_⟩ <;> simp [start]

theorem Orderly.exclusive {intr : κ → Bool} {s : System ι κ σ ε} (hs : Orderly intr s) {i j : ι}
    (hi : s.inside i = true) (hj : s.inside j = true) : i = j :=
  Option.some.inj (((hs.owner i).mp hi).symm.trans ((hs.owner j).mp hj))

variable [DecidableEq ι]

/-- Only the owner of the lock gives it back. -/
theorem Orderly.unlock_by_owner {intr : κ → Bool} {code : κ → Code σ ε Unit}
    {s s' : System ι κ σ ε} {e : Event ι κ} (hs : Orderly intr s) (h : Step code s e s')
    (he : e.kind = .unlock) : s.owner = some e.task := by
  cases h with
  | unlock h => exact (hs.owner _).mp (hs.running _ _ h).1
  | invoke | acquire | interrupt | act | finish => simp at he

/-- A step of one task leaves the others where they were. -/
theorem Orderly.goto {intr : κ → Bool} {s : System ι κ σ ε} (hs : Orderly intr s) {i : ι}
    {t : Option (Task κ σ ε)} (mem : σ) (owner : Option ι) (held : Bool)
    (ht : ∀ t', t = some t' →
      t'.rest.Brackets (intr t'.call) (fun held _ => held = false) held)
    (hnone : t = none → held = false) (hi : held = true ↔ owner = some i)
    (hother : ∀ j, j ≠ i → (s.owner = some j ↔ owner = some j)) :
    Orderly intr ⟨mem, owner, Function.update s.inside i held, Function.update s.tasks i t⟩ := by
  refine ⟨?_, ?_, ?_⟩
  · intro j
    by_cases hj : j = i
    · subst hj
      simpa using hi
    · simp only [Function.update_of_ne hj]
      rw [hs.owner j, hother j hj]
  · intro j t' hj'
    by_cases hj : j = i
    · subst hj
      simp only [Function.update_self] at hj' ⊢
      exact ht t' hj'
    · simp only [Function.update_of_ne hj] at hj' ⊢
      exact hs.running j t' hj'
  · intro j hj'
    by_cases hj : j = i
    · subst hj
      simp only [Function.update_self] at hj' ⊢
      exact hnone hj'
    · simp only [Function.update_of_ne hj] at hj' ⊢
      exact hs.idle j hj'

/-- One step of a system of bracketed calls. -/
theorem Orderly.step {intr : κ → Bool} {code : κ → Code σ ε Unit} {s s' : System ι κ σ ε}
    {e : Event ι κ} (hs : Orderly intr s) (h : Step code s e s')
    (hinvoke : e.kind = .invoke →
      (code e.call).Brackets (intr e.call) (fun held _ => held = false) false)
    (hintr : e.kind = .interrupt → intr e.call = true) : Orderly intr s' := by
  have hstay : ∀ i t, (∀ t', t = some t' →
      t'.rest.Brackets (intr t'.call) (fun held _ => held = false) (s.inside i)) →
      (t = none → s.inside i = false) → ∀ mem,
      Orderly intr { s.goto i t with mem := mem } := by
    intro i t ht hnone mem
    have h := hs.goto mem s.owner (s.inside i) ht hnone (hs.owner i) (fun j _ => Iff.rfl)
    rwa [Function.update_eq_self] at h
  cases h with
  | @invoke i c h =>
    refine hstay i _ (fun t' ht' => ?_) (by simp) s.mem
    obtain rfl : _ = t' := Option.some.inj ht'
    rw [hs.idle i h]
    exact hinvoke rfl
  | @acquire i c p q h hfree =>
    obtain ⟨hout, hp, _⟩ := hs.running i _ h
    refine hs.goto s.mem (some i) true (fun t' ht' => ?_) (by simp) (by simp) (fun j hj => ?_)
    · obtain rfl : _ = t' := Option.some.inj ht'
      exact hp
    · simp [hfree, Ne.symm hj]
  | @interrupt i c p q h =>
    obtain ⟨hout, _, hq⟩ := hs.running i _ h
    refine hstay i _ (fun t' ht' => ?_) (by simp) s.mem
    obtain rfl : _ = t' := Option.some.inj ht'
    rw [hout]
    exact hq (hintr rfl)
  | @unlock i c p h =>
    obtain ⟨hin, hp⟩ := hs.running i _ h
    have howner := (hs.owner i).mp hin
    refine hs.goto s.mem none false (fun t' ht' => ?_) (by simp) (by simp) (fun j hj => ?_)
    · obtain rfl : _ = t' := Option.some.inj ht'
      exact hp
    · simp [howner, Ne.symm hj]
  | @act i c u k h =>
    refine hstay i _ (fun t' ht' => ?_) (by simp) (u s.mem)
    obtain rfl : _ = t' := Option.some.inj ht'
    exact hs.running i _ h s.mem
  | @finish i c h =>
    exact hstay i none (by simp) (fun _ => hs.running i _ h) s.mem

/-- The lock is exclusive in every run of bracketed calls. -/
theorem Reaches.orderly {intr : κ → Bool} {code : κ → Code σ ε Unit} {Allowed : Event ι κ → Prop}
    {mem : σ} {s : System ι κ σ ε} (hs : Reaches code Allowed (start mem) s)
    (hinvoke : ∀ e, Allowed e → e.kind = .invoke →
      (code e.call).Brackets (intr e.call) (fun held _ => held = false) false)
    (hintr : ∀ e, Allowed e → e.kind = .interrupt → intr e.call = true) : Orderly intr s :=
  hs.invariant (orderly_start intr mem) (fun _ e _ ho he h => ho.step h (hinvoke e he) (hintr e he))

end System

end Aesd.Base
