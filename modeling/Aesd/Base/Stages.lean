import Aesd.Base.Lock

namespace Aesd.Base

/-- How an observer follows a task: it is at some stage, and each of its steps
takes it to the next one. A step that leads to no stage is against the rules. -/
structure Rules (σ S : Type) where
  lock : S → S → Prop
  unlock : S → S → Prop
  act : S → σ → S → σ → Prop

namespace Rules
variable {σ ε α β S : Type} (D : Rules σ S)

/-- The code keeps to the rules from stage `st` on, whatever becomes of the state
between its steps. `Q` is known of the stage at the end. -/
def Follows (Q : S → α → Prop) : S → Code σ ε α → Prop
  | st, .ret a => Q st a
  | _, .fault _ => True
  | st, .lock p q => (∃ st', D.lock st st' ∧ Follows Q st' p) ∧ Follows Q st q
  | st, .unlock p => ∃ st', D.unlock st st' ∧ Follows Q st' p
  | st, .act u k => ∀ s, ∃ st', D.act st s st' (u s) ∧ Follows Q st' (k s)

variable {D} {st : S} {Q : S → α → Prop} {R : S → β → Prop}

theorem Follows.bind {p : Code σ ε α} {f : α → Code σ ε β} (hp : D.Follows Q st p)
    (hf : ∀ st a, Q st a → D.Follows R st (f a)) : D.Follows R st (p >>= f) := by
  change D.Follows R st (p.bind f)
  induction p generalizing st with
  | ret a => exact hf st a hp
  | fault e => trivial
  | lock p q ihp ihq =>
    obtain ⟨⟨st', hl, hp⟩, hq⟩ := hp
    exact ⟨⟨st', hl, ihp hp⟩, ihq hq⟩
  | unlock p ih =>
    obtain ⟨st', hu, hp⟩ := hp
    exact ⟨st', hu, ih hp⟩
  | act u k ih =>
    intro s
    obtain ⟨st', ha, hk⟩ := hp s
    exact ⟨st', ha, ih s hk⟩

theorem Follows.imp {Q' : S → α → Prop} {p : Code σ ε α} (hp : D.Follows Q st p)
    (h : ∀ st a, Q st a → Q' st a) : D.Follows Q' st p := by
  induction p generalizing st with
  | ret a => exact h st a hp
  | fault e => trivial
  | lock p q ihp ihq =>
    obtain ⟨⟨st', hl, hp⟩, hq⟩ := hp
    exact ⟨⟨st', hl, ihp hp⟩, ihq hq⟩
  | unlock p ih =>
    obtain ⟨st', hu, hp⟩ := hp
    exact ⟨st', hu, ih hp⟩
  | act u k ih =>
    intro s
    obtain ⟨st', ha, hk⟩ := hp s
    exact ⟨st', ha, ih s hk⟩

/-- Rules that a coarser observer has can be followed through a finer one. `Rel`
relates their stages. -/
theorem Follows.simulate {T : Type} {D' : Rules σ T} {Q' : T → α → Prop} (Rel : S → T → Prop)
    (hlock : ∀ st t st', Rel st t → D.lock st st' → ∃ t', D'.lock t t' ∧ Rel st' t')
    (hunlock : ∀ st t st', Rel st t → D.unlock st st' → ∃ t', D'.unlock t t' ∧ Rel st' t')
    (hact : ∀ st t st' s s', Rel st t → D.act st s st' s' → ∃ t', D'.act t s t' s' ∧ Rel st' t')
    (hend : ∀ st t a, Rel st t → Q st a → Q' t a) {t : T} {p : Code σ ε α} (ht : Rel st t)
    (hp : D.Follows Q st p) : D'.Follows Q' t p := by
  induction p generalizing st t with
  | ret a => exact hend st t a ht hp
  | fault e => trivial
  | lock p q ihp ihq =>
    obtain ⟨⟨st', hl, hp⟩, hq⟩ := hp
    obtain ⟨t', hl', ht'⟩ := hlock st t st' ht hl
    exact ⟨⟨t', hl', ihp ht' hp⟩, ihq ht hq⟩
  | unlock p ih =>
    obtain ⟨st', hu, hp⟩ := hp
    obtain ⟨t', hu', ht'⟩ := hunlock st t st' ht hu
    exact ⟨t', hu', ih ht' hp⟩
  | act u k ih =>
    intro s
    obtain ⟨st', ha, hk⟩ := hp s
    obtain ⟨t', ha', ht'⟩ := hact st t st' s (u s) ht ha
    exact ⟨t', ha', ih s ht' hk⟩

theorem follows_pure {a : α} (hQ : Q st a) : D.Follows Q st (pure a : Code σ ε α) := hQ

theorem follows_ofExcept {r : Except ε α} {f : α → Code σ ε β}
    (hf : ∀ a, r = .ok a → D.Follows R st (f a)) :
    D.Follows R st (Code.ofExcept r >>= f) := by
  cases r with
  | ok a => exact hf a rfl
  | error e => trivial

/-- One call. It is a step even if it faults. -/
theorem follows_call {f : σ → Except ε α × σ}
    (hf : ∀ s, ∃ st', D.act st s st' (f s).2 ∧ ∀ a, (f s).1 = .ok a → Q st' a) :
    D.Follows Q st (Code.call f) := by
  intro s
  obtain ⟨st', ha, hQ⟩ := hf s
  refine ⟨st', ha, ?_⟩
  dsimp only
  cases hr : (f s).1 with
  | ok a => exact hQ a hr
  | error e => trivial

theorem follows_lock {st' : S} {f : Bool → Code σ ε β} (hl : D.lock st st')
    (hin : D.Follows R st' (f false)) (hagain : D.Follows R st (f true)) :
    D.Follows R st (Code.lockInterruptible >>= f) := ⟨⟨st', hl, hin⟩, hagain⟩

theorem follows_release {st' : S} {f : Unit → Code σ ε β} (hu : D.unlock st st')
    (hf : D.Follows R st' (f ())) : D.Follows R st (Code.release >>= f) := ⟨st', hu, hf⟩

end Rules

namespace System
variable {ι κ σ ε S : Type}

/-- Every call in progress keeps to the rules for it from the stage it is at. -/
def Staged (D : κ → Rules σ S) (Q : S → Prop) (stage : ι → S) (s : System ι κ σ ε) : Prop :=
  ∀ i t, s.tasks i = some t → (D t.call).Follows (fun st _ => Q st) (stage i) t.rest

/-- The stage that a step comes from and the one that it leads to. Calls start at
stage `first`. -/
def Moves (D : κ → Rules σ S) (Q : S → Prop) (first : S) (e : Event ι κ)
    (st : S) (mem : σ) (st' : S) (mem' : σ) : Prop :=
  match e.kind with
  | .invoke => st' = first ∧ mem' = mem
  | .acquire => (D e.call).lock st st' ∧ mem' = mem
  | .interrupt => st' = st ∧ mem' = mem
  | .unlock => (D e.call).unlock st st' ∧ mem' = mem
  | .act => (D e.call).act st mem st' mem'
  | .finish => Q st ∧ st' = st ∧ mem' = mem

variable {D : κ → Rules σ S} {Q : S → Prop} {first : S} {stage : ι → S} {s s' : System ι κ σ ε}
  {e : Event ι κ} {code : κ → Code σ ε Unit} [DecidableEq ι]

/-- A step of one task leaves the others at their stages. -/
theorem Staged.goto (hs : Staged D Q stage s) (i : ι) (st : S) {t : Option (Task κ σ ε)} {mem : σ}
    {owner : Option ι} {inside : ι → Bool}
    (ht : ∀ t', t = some t' → (D t'.call).Follows (fun st _ => Q st) st t'.rest) :
    Staged D Q (Function.update stage i st) ⟨mem, owner, inside, Function.update s.tasks i t⟩ := by
  intro j t' hj
  by_cases he : j = i
  · subst he
    simp only [Function.update_self] at hj ⊢
    exact ht t' hj
  · simp only [Function.update_of_ne he] at hj ⊢
    exact hs j t' hj

/-- What one step does to the stages. -/
theorem Staged.step (hs : Staged D Q stage s) (h : Step code s e s')
    (hinvoke : e.kind = .invoke → (D e.call).Follows (fun st _ => Q st) first (code e.call)) :
    ∃ st', Moves D Q first e (stage e.task) s.mem st' s'.mem ∧
      Staged D Q (Function.update stage e.task st') s' := by
  cases h with
  | @invoke i c h =>
    refine ⟨first, ⟨rfl, rfl⟩, hs.goto i first (fun t' ht' => ?_)⟩
    obtain rfl : _ = t' := Option.some.inj ht'
    exact hinvoke rfl
  | @acquire i c p q h hfree =>
    obtain ⟨⟨st', hl, hp⟩, _⟩ := hs i _ h
    refine ⟨st', ⟨hl, rfl⟩, hs.goto i st' (fun t' ht' => ?_)⟩
    obtain rfl : _ = t' := Option.some.inj ht'
    exact hp
  | @interrupt i c p q h =>
    obtain ⟨_, hq⟩ := hs i _ h
    refine ⟨stage i, ⟨rfl, rfl⟩, hs.goto i (stage i) (fun t' ht' => ?_)⟩
    obtain rfl : _ = t' := Option.some.inj ht'
    exact hq
  | @unlock i c p h =>
    obtain ⟨st', hu, hp⟩ := hs i _ h
    refine ⟨st', ⟨hu, rfl⟩, hs.goto i st' (fun t' ht' => ?_)⟩
    obtain rfl : _ = t' := Option.some.inj ht'
    exact hp
  | @act i c u k h =>
    obtain ⟨st', ha, hk⟩ := hs i _ h s.mem
    refine ⟨st', ha, hs.goto i st' (fun t' ht' => ?_)⟩
    obtain rfl : _ = t' := Option.some.inj ht'
    exact hk
  | @finish i c h =>
    exact ⟨stage i, ⟨hs i _ h, rfl, rfl⟩, hs.goto i (stage i) (by simp)⟩

/-- Who has the lock changes with the steps that are about it. -/
theorem Step.inside_self (h : Step code s e s') : s'.inside e.task = match e.kind with
    | .acquire => true
    | .unlock => false
    | _ => s.inside e.task := by
  cases h with
  | acquire | unlock => exact Function.update_self _ _ _
  | invoke | interrupt | act | finish => rfl

theorem Step.inside_of_ne (h : Step code s e s') {j : ι} (hj : j ≠ e.task) :
    s'.inside j = s.inside j := by
  cases h with
  | acquire | unlock => exact Function.update_of_ne hj _ _
  | invoke | interrupt | act | finish => rfl

theorem Step.tasks_of_ne (h : Step code s e s') {j : ι} (hj : j ≠ e.task) :
    s'.tasks j = s.tasks j := by
  cases h <;> exact Function.update_of_ne hj _ _

theorem Step.task_none_iff (h : Step code s e s') : s'.tasks e.task = none ↔ e.kind = .finish := by
  cases h <;> simp [System.goto]

/-- Only a call that is not in progress can start, and only one in progress goes on. -/
theorem Step.was_none_iff (h : Step code s e s') : s.tasks e.task = none ↔ e.kind = .invoke := by
  cases h <;> simp [*]

/-- A task stays with its call. -/
theorem Step.call_eq (h : Step code s e s') {t : Task κ σ ε} (ht : s.tasks e.task = some t) :
    t.call = e.call := by
  cases h with
  | invoke c h => cases h.symm.trans ht
  | acquire h | interrupt h | unlock h | act h | finish h =>
    obtain rfl := Option.some.inj (h.symm.trans ht)
    rfl

theorem Step.call_after (h : Step code s e s') {t : Task κ σ ε} (ht : s'.tasks e.task = some t) :
    t.call = e.call := by
  cases h with
  | invoke | acquire | interrupt | unlock | act =>
    simp only [System.goto, Function.update_self, Option.some.injEq] at ht
    rw [← ht]
  | finish => simp [System.goto] at ht

/-- Each task runs the call that is named like it. -/
def Own {ι : Type} (s : System ι ι σ ε) : Prop := ∀ i t, s.tasks i = some t → t.call = i

section Own
variable {ι : Type} [DecidableEq ι] {s s' : System ι ι σ ε} {e : Event ι ι}
  {code : ι → Code σ ε Unit}

theorem Own.call_eq (hs : Own s) (h : Step code s e s') (hkind : e.kind ≠ .invoke) :
    e.call = e.task := by
  obtain ⟨t, ht⟩ := Option.ne_none_iff_exists'.mp (mt h.was_none_iff.mp hkind)
  exact (h.call_eq ht).symm.trans (hs _ _ ht)

theorem Own.step (hs : Own s) (h : Step code s e s') (hcall : e.call = e.task) : Own s' := by
  intro j t ht
  by_cases hj : j = e.task
  · subst hj
    exact (h.call_after ht).trans hcall
  · exact hs j t (h.tasks_of_ne hj ▸ ht)

end Own

/-- States that steps which do `Ok` to the state lead to. -/
inductive Runs (code : κ → Code σ ε Unit) (Ok : σ → σ → Prop) (s₀ : System ι κ σ ε) :
    System ι κ σ ε → Prop
  | refl : Runs code Ok s₀ s₀
  | step {s s' : System ι κ σ ε} {e : Event ι κ} (hs : Runs code Ok s₀ s)
      (hok : Ok s.mem s'.mem) (h : Step code s e s') : Runs code Ok s₀ s'

/-- The states that steps which satisfy `Ok` lead through, and the last of them. -/
inductive Trace (code : κ → Code σ ε Unit)
    (Ok : System ι κ σ ε → Event ι κ → System ι κ σ ε → Prop) (s₀ : System ι κ σ ε) :
    List (System ι κ σ ε) → System ι κ σ ε → Prop
  | start : Trace code Ok s₀ [s₀] s₀
  | step {states : List (System ι κ σ ε)} {s s' : System ι κ σ ε} {e : Event ι κ}
      (hs : Trace code Ok s₀ states s) (hok : Ok s e s') (h : Step code s e s') :
      Trace code Ok s₀ (states ++ [s']) s'

theorem Trace.last_mem {Ok : System ι κ σ ε → Event ι κ → System ι κ σ ε → Prop}
    {s₀ : System ι κ σ ε} {states : List (System ι κ σ ε)} (h : Trace code Ok s₀ states s) :
    s ∈ states := by
  cases h <;> simp

theorem Trace.runs {Ok : System ι κ σ ε → Event ι κ → System ι κ σ ε → Prop} {R : σ → σ → Prop}
    {s₀ : System ι κ σ ε} {states : List (System ι κ σ ε)} (h : Trace code Ok s₀ states s)
    (hok : ∀ s e s', Ok s e s' → R s.mem s'.mem) : Runs code R s₀ s := by
  induction h with
  | start => exact .refl
  | step _ hstep h ih => exact ih.step (hok _ _ _ hstep) h

/-- The states that a schedule leads through, if its steps pass the check. -/
def trace (code : κ → Code σ ε Unit)
    (check : System ι κ σ ε → Event ι κ → System ι κ σ ε → Bool)
    (states : List (System ι κ σ ε)) (s : System ι κ σ ε) :
    List (ι × Choice κ) → Option (List (System ι κ σ ε) × System ι κ σ ε)
  | [] => some (states, s)
  | (i, ch) :: schedule =>
    match next code s i ch with
    | some (e, s') => if check s e s' then trace code check (states ++ [s']) s' schedule else none
    | none => none

theorem Trace.trace {Ok : System ι κ σ ε → Event ι κ → System ι κ σ ε → Prop}
    {check : System ι κ σ ε → Event ι κ → System ι κ σ ε → Bool} {s₀ : System ι κ σ ε}
    {states states' : List (System ι κ σ ε)} (hs : Trace code Ok s₀ states s)
    (hok : ∀ s e s', check s e s' = true → Ok s e s') {schedule : List (ι × Choice κ)}
    (h : System.trace code check states s schedule = some (states', s')) :
    Trace code Ok s₀ states' s' := by
  induction schedule generalizing s states with
  | nil =>
    obtain ⟨rfl, rfl⟩ := Prod.mk.inj (Option.some.inj h)
    exact hs
  | cons c schedule ih =>
    simp only [System.trace] at h
    split at h
    · split at h
      · exact ih (hs.step (hok _ _ _ ‹_›) (step_of_next ‹_›)) h
      · cases h
    · cases h

end System

end Aesd.Base
