import Aesd.Base.Lock

namespace Aesd.Base

/-- What a task has of the lock. A task that is `broken` holds it over a state
that is out of order, and may not give it back. -/
inductive Hold where
  | out
  | inside
  | broken
  deriving DecidableEq

/-- How tasks share a state. `view i` is the part that only task `i` changes,
`always` holds throughout, and `order` holds whenever the lock is free. -/
structure Sharing (ι σ V : Type) where
  view : ι → σ → V
  always : σ → Prop
  order : σ → Prop

namespace Sharing
variable {ι σ ε α β V : Type} (S : Sharing ι σ V) (i : ι)

/-- What a step of task `i` may do to the state. Without the lock it may not
disturb the order that others rely on. -/
structure Moves (h h' : Hold) (s s' : σ) : Prop where
  always : S.always s'
  outside : h = .out ↔ h' = .out
  order : h' = .inside → S.order s'
  undisturbed : h = .out → S.order s → S.order s'
  others : ∀ j, j ≠ i → S.view j s' = S.view j s

/-- The code of task `i` plays by the rules from a state in which its view is `v`
and it has `h` of the lock. `Q` is known at the end. Of the state nothing else is
known at each step but what the others leave alone. -/
def Safe (Q : Hold → V → α → Prop) : Hold → V → Code σ ε α → Prop
  | h, v, .ret a => Q h v a
  | _, _, .fault _ => True
  | h, v, .lock p q => (h = .out → Safe Q .inside v p) ∧ Safe Q h v q
  | h, v, .unlock p => h = .inside ∧ Safe Q .out v p
  | h, v, .act u k => ∀ s, S.view i s = v → S.always s → (h = .inside → S.order s) →
      ∃ h', S.Moves i h h' s (u s) ∧ Safe Q h' (S.view i (u s)) (k s)

variable {S i} {h : Hold} {v : V} {Q : Hold → V → α → Prop} {R : Hold → V → β → Prop}

theorem Safe.bind {p : Code σ ε α} {f : α → Code σ ε β} (hp : S.Safe i Q h v p)
    (hf : ∀ h v a, Q h v a → S.Safe i R h v (f a)) : S.Safe i R h v (p >>= f) := by
  change S.Safe i R h v (p.bind f)
  induction p generalizing h v with
  | ret a => exact hf h v a hp
  | fault e => trivial
  | lock p q ihp ihq => exact ⟨fun hout => ihp (hp.1 hout), ihq hp.2⟩
  | unlock p ih => exact ⟨hp.1, ih hp.2⟩
  | act u k ih =>
    intro s hv ha ho
    obtain ⟨h', hm, hk⟩ := hp s hv ha ho
    exact ⟨h', hm, ih s hk⟩

theorem safe_pure {a : α} (hQ : Q h v a) : S.Safe i Q h v (pure a : Code σ ε α) := hQ

theorem safe_ofExcept {r : Except ε α} {f : α → Code σ ε β}
    (hf : ∀ a, r = .ok a → S.Safe i R h v (f a)) : S.Safe i R h v (Code.ofExcept r >>= f) := by
  cases r with
  | ok a => exact hf a rfl
  | error e => trivial

/-- One call. What it does to the state matters even if it faults. -/
theorem safe_call {f : σ → Except ε α × σ}
    (hf : ∀ s, S.view i s = v → S.always s → (h = .inside → S.order s) →
      ∃ h', S.Moves i h h' s (f s).2 ∧ ∀ a, (f s).1 = .ok a → Q h' (S.view i (f s).2) a) :
    S.Safe i Q h v (Code.call f) := by
  intro s hv ha ho
  obtain ⟨h', hm, hQ⟩ := hf s hv ha ho
  refine ⟨h', hm, ?_⟩
  dsimp only
  split
  · exact hQ _ ‹_›
  · trivial

/-- Code that waits for the lock, and goes on waiting when interrupted. -/
theorem safe_lock {f : Bool → Code σ ε β} (hin : h = .out → S.Safe i R .inside v (f false))
    (hagain : S.Safe i R h v (f true)) : S.Safe i R h v (Code.lockInterruptible >>= f) :=
  ⟨hin, hagain⟩

theorem safe_release {f : Unit → Code σ ε β} (hf : S.Safe i R .out v (f ())) :
    S.Safe i R .inside v (Code.release >>= f) := ⟨rfl, hf⟩

end Sharing

namespace System
variable {ι κ σ ε V : Type} {S : Sharing ι σ V}

/-- Every task plays by the rules, and the state is in order unless somebody is
inside whose state is broken. -/
structure Fair (S : Sharing ι σ V) (hold : ι → Hold) (s : System ι κ σ ε) : Prop where
  always : S.always s.mem
  free : s.owner = none → S.order s.mem
  owner : ∀ i, hold i ≠ .out → s.owner = some i
  order : ∀ i, hold i = .inside → S.order s.mem
  running : ∀ i t, s.tasks i = some t →
    S.Safe i (fun _ _ _ => True) (hold i) (S.view i s.mem) t.rest

variable {hold : ι → Hold} {s s' : System ι κ σ ε}

/-- At most one task is inside or broken. -/
theorem Fair.unique (hs : Fair S hold s) {i j : ι} (hi : hold i ≠ .out) (hj : hold j ≠ .out) :
    j = i := Option.some.inj ((hs.owner j hj).symm.trans (hs.owner i hi))

variable [DecidableEq ι]

/-- A step of one task leaves the others where they were. -/
theorem Fair.goto (hs : Fair S hold s) (i : ι) (h' : Hold) {t : Option (Task κ σ ε)} {mem : σ}
    {owner : Option ι} {inside : ι → Bool} (halways : S.always mem)
    (hfree : owner = none → S.order mem) (howner : h' ≠ .out → owner = some i)
    (horder : h' = .inside → S.order mem)
    (hothers : ∀ j, j ≠ i → hold j ≠ .out → owner = some j)
    (hkept : ∀ j, j ≠ i → hold j = .inside → S.order mem)
    (hview : ∀ j, j ≠ i → S.view j mem = S.view j s.mem)
    (ht : ∀ t', t = some t' → S.Safe i (fun _ _ _ => True) h' (S.view i mem) t'.rest) :
    Fair S (Function.update hold i h')
      ⟨mem, owner, inside, Function.update s.tasks i t⟩ := by
  refine ⟨halways, hfree, ?_, ?_, ?_⟩
  · intro j hj
    by_cases he : j = i
    · subst he
      exact howner (by simpa using hj)
    · exact hothers j he (by simpa [he] using hj)
  · intro j hj
    by_cases he : j = i
    · subst he
      exact horder (by simpa using hj)
    · exact hkept j he (by simpa [he] using hj)
  · intro j t' hj
    by_cases he : j = i
    · subst he
      simp only [Function.update_self] at hj ⊢
      exact ht t' hj
    · simp only [Function.update_of_ne he] at hj ⊢
      rw [hview j he]
      exact hs.running j t' hj

/-- One step of a fair system. -/
theorem Fair.step {code : κ → Code σ ε Unit} {e : Event ι κ} (hs : Fair S hold s)
    (h : Step code s e s') (he : e.kind ≠ .invoke) : ∃ hold', Fair S hold' s' := by
  cases h with
  | invoke => exact absurd rfl he
  | @acquire i c p q h hfree =>
    have hout : ∀ j, hold j = .out := by
      intro j
      by_contra hj
      exact absurd (hs.owner j hj) (by simp [hfree])
    refine ⟨_, hs.goto i .inside hs.always (by simp) (fun _ => rfl)
      (fun _ => hs.free hfree) (fun j _ hj => absurd (hout j) hj)
      (fun j _ hj => hs.order j hj) (fun _ _ => rfl) (fun t' ht' => ?_)⟩
    obtain rfl : _ = t' := Option.some.inj ht'
    exact (hs.running i _ h).1 (hout i)
  | @interrupt i c p q h =>
    refine ⟨_, hs.goto i (hold i) hs.always hs.free (hs.owner i) (hs.order i)
      (fun j _ => hs.owner j) (fun j _ => hs.order j) (fun _ _ => rfl) (fun t' ht' => ?_)⟩
    obtain rfl : _ = t' := Option.some.inj ht'
    exact (hs.running i _ h).2
  | @unlock i c p h =>
    obtain ⟨hin, hp⟩ := hs.running i _ h
    have hi : hold i ≠ .out := by simp [hin]
    refine ⟨_, hs.goto i .out hs.always (fun _ => hs.order i hin) (by simp)
      (by simp) (fun j hne hj => absurd (hs.unique hi hj) hne) (fun j _ => hs.order j)
      (fun _ _ => rfl) (fun t' ht' => ?_)⟩
    obtain rfl : _ = t' := Option.some.inj ht'
    exact hp
  | @act i c u k h =>
    obtain ⟨h', hm, hk⟩ := hs.running i _ h s.mem rfl hs.always (hs.order i)
    have hkept : ∀ j, j ≠ i → hold j ≠ .out → hold i = .out := by
      intro j hne hj
      by_contra hi
      exact hne (hs.unique hi hj)
    refine ⟨_, hs.goto i h' hm.always (fun hfree => ?_) (fun hin => ?_) hm.order
      (fun j _ => hs.owner j) (fun j hne hj => ?_) hm.others (fun t' ht' => ?_)⟩
    · have hout : hold i = .out := by
        by_contra hi
        exact absurd (hs.owner i hi) (by simp [show s.owner = none from hfree])
      exact hm.undisturbed hout (hs.free hfree)
    · exact hs.owner i (fun hout => hin (hm.outside.mp hout))
    · exact hm.undisturbed (hkept j hne (by simp [hj])) (hs.order j hj)
    · obtain rfl : _ = t' := Option.some.inj ht'
      exact hk
  | @finish i c h =>
    exact ⟨_, hs.goto i (hold i) hs.always hs.free (hs.owner i) (hs.order i)
      (fun j _ => hs.owner j) (fun j _ => hs.order j) (fun _ _ => rfl) (by simp)⟩

/-- What the tasks keep up between them holds in every state that they reach. -/
theorem Reaches.always {code : κ → Code σ ε Unit} {s₀ s : System ι κ σ ε}
    (hs : Reaches code (fun e => e.kind ≠ .invoke) s₀ s) (h₀ : Fair S hold s₀) :
    S.always s.mem := by
  obtain ⟨hold', hfair⟩ : ∃ hold', Fair S hold' s :=
    hs.invariant (P := fun s => ∃ hold', Fair S hold' s) ⟨hold, h₀⟩
      (fun _ _ _ ⟨_, hf⟩ he h => hf.step h he)
  exact hfair.always

end System

end Aesd.Base
