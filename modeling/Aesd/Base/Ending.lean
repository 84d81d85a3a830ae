import Aesd.Base.Lock

namespace Aesd.Base

namespace Code
variable {σ ε α β : Type}

/-- The end is at most `n` steps away, with no lock and no fault before it. -/
def Ends : Nat → Code σ ε α → Prop
  | _, ret _ => True
  | _, fault _ => False
  | _, lock _ _ => False
  | n, unlock p => ∃ m, n = m + 1 ∧ Ends m p
  | n, act _ k => ∃ m, n = m + 1 ∧ ∀ s, Ends m (k s)

/-- Once a step has made its mark, the end is at most `n` steps away. -/
def EndsAfter (mark : σ → σ → Prop) (n : Nat) : Code σ ε α → Prop
  | ret _ => True
  | fault _ => True
  | lock p q => EndsAfter mark n p ∧ EndsAfter mark n q
  | unlock p => EndsAfter mark n p
  | act u k => ∀ s, (mark s (u s) → Ends n (k s)) ∧ EndsAfter mark n (k s)

/-- No step makes the mark. -/
def Never (mark : σ → σ → Prop) : Code σ ε α → Prop
  | ret _ => True
  | fault _ => True
  | lock p q => Never mark p ∧ Never mark q
  | unlock p => Never mark p
  | act u k => ∀ s, ¬ mark s (u s) ∧ Never mark (k s)

variable {mark : σ → σ → Prop} {m n : Nat}

theorem Ends.mono {p : Code σ ε α} (hp : Ends m p) (hle : m ≤ n) : Ends n p := by
  induction p generalizing m n with
  | ret a => trivial
  | fault e => exact hp
  | lock p q => exact hp
  | unlock p ih =>
    obtain ⟨m, rfl, hp⟩ := hp
    obtain ⟨n, rfl⟩ := Nat.exists_eq_succ_of_ne_zero (Nat.ne_of_gt (Nat.zero_lt_of_lt hle))
    exact ⟨n, rfl, ih hp (Nat.le_of_succ_le_succ hle)⟩
  | act u k ih =>
    obtain ⟨m, rfl, hk⟩ := hp
    obtain ⟨n, rfl⟩ := Nat.exists_eq_succ_of_ne_zero (Nat.ne_of_gt (Nat.zero_lt_of_lt hle))
    exact ⟨n, rfl, fun s => ih s (hk s) (Nat.le_of_succ_le_succ hle)⟩

theorem Never.bind {p : Code σ ε α} {f : α → Code σ ε β} (hp : Never mark p)
    (hf : ∀ a, Never mark (f a)) : Never mark (p >>= f) := by
  change Never mark (p.bind f)
  induction p with
  | ret a => exact hf a
  | fault e => trivial
  | lock p q ihp ihq => exact ⟨ihp hp.1, ihq hp.2⟩
  | unlock p ih => exact ih hp
  | act u k ih => exact fun s => ⟨(hp s).1, ih s (hp s).2⟩

/-- What comes before the mark does not matter. -/
theorem Never.endsAfter {p : Code σ ε α} {f : α → Code σ ε β} (hp : Never mark p)
    (hf : ∀ a, EndsAfter mark n (f a)) : EndsAfter mark n (p >>= f) := by
  change EndsAfter mark n (p.bind f)
  induction p with
  | ret a => exact hf a
  | fault e => trivial
  | lock p q ihp ihq => exact ⟨ihp hp.1, ihq hp.2⟩
  | unlock p ih => exact ih hp
  | act u k ih =>
    intro s
    obtain ⟨hnot, hk⟩ := hp s
    exact ⟨fun hmark => absurd hmark hnot, ih s hk⟩

theorem never_pure (a : α) : Never mark (pure a : Code σ ε α) := trivial

theorem never_ofExcept (r : Except ε α) : Never mark (ofExcept r : Code σ ε α) := by
  cases r <;> trivial

theorem never_call {f : σ → Except ε α × σ} (hf : ∀ s, ¬ mark s (f s).2) :
    Never mark (call f) := by
  intro s
  refine ⟨hf s, ?_⟩
  dsimp only
  split <;> trivial

theorem never_lock : Never mark (lockInterruptible : Code σ ε Bool) := ⟨trivial, trivial⟩

theorem never_release : Never mark (release : Code σ ε Unit) := trivial

theorem endsAfter_call {f : σ → Except ε α × σ} {g : α → Code σ ε β}
    (hf : ∀ s, ∃ a, (f s).1 = .ok a ∧ Ends n (g a) ∧ EndsAfter mark n (g a)) :
    EndsAfter mark n (call f >>= g) := by
  intro s
  obtain ⟨a, ha, hends, hafter⟩ := hf s
  simp only [ha]
  exact ⟨fun _ => hends, hafter⟩

theorem ends_call {f : σ → Except ε α × σ} (hf : ∀ s, ∃ a, (f s).1 = .ok a) : Ends 1 (call f) := by
  refine ⟨0, rfl, fun s => ?_⟩
  obtain ⟨a, ha⟩ := hf s
  simp only [ha]
  trivial

theorem Never.endsAfter_self {p : Code σ ε α} (hp : Never mark p) : EndsAfter mark n p := by
  induction p with
  | ret a => trivial
  | fault e => trivial
  | lock p q ihp ihq => exact ⟨ihp hp.1, ihq hp.2⟩
  | unlock p ih => exact ih hp
  | act u k ih =>
    intro s
    obtain ⟨hnot, hk⟩ := hp s
    exact ⟨fun hmark => absurd hmark hnot, ih s hk⟩

end Code

namespace System
variable {ι κ σ ε : Type} {mark : ι → σ → σ → Prop} {n : Nat} {done done' : ι → Prop}

/-- A task that is done has at most `n` steps to go, and any other one will have once
it has made its mark. -/
def Brief (mark : ι → σ → σ → Prop) (n : Nat) (done : ι → Prop) (s : System ι κ σ ε) : Prop :=
  ∀ i t, s.tasks i = some t → Code.EndsAfter (mark i) n t.rest ∧ (done i → Code.Ends n t.rest)

variable [DecidableEq ι] {s s' : System ι κ σ ε} {e : Event ι κ} {code : κ → Code σ ε Unit}

/-- The step of one task leaves the others as they are. -/
theorem Brief.goto (hs : Brief mark n done s) (i : ι) {t : Option (Task κ σ ε)}
    (hdone : ∀ j, j ≠ i → done' j → done j)
    (ht : ∀ t', t = some t' → Code.EndsAfter (mark i) n t'.rest ∧ (done' i → Code.Ends n t'.rest)) :
    Brief mark n done' (s.goto i t) := by
  intro j t' hj
  simp only [System.goto] at hj
  by_cases he : j = i
  · subst he
    rw [Function.update_self] at hj
    exact ht t' hj
  · rw [Function.update_of_ne he] at hj
    obtain ⟨hafter, hends⟩ := hs j t' hj
    exact ⟨hafter, fun h => hends (hdone j he h)⟩

/-- One is done by its own mark only. -/
theorem Brief.step (hs : Brief mark n done s) (h : Step code s e s') (hkind : e.kind ≠ .invoke)
    (hdone : ∀ i, done' i →
      done i ∨ (i = e.task ∧ e.kind = .act ∧ mark i s.mem s'.mem)) : Brief mark n done' s' := by
  have hothers : ∀ j, j ≠ e.task → done' j → done j := by
    intro j hj h'
    apply (hdone j h').resolve_right
    intro hact
    exact hj hact.1
  cases h with
  | invoke => exact absurd rfl hkind
  | @acquire i c p q h =>
    obtain ⟨hafter, hends⟩ := hs i _ h
    refine hs.goto i hothers (fun t' ht' => ?_)
    obtain rfl := Option.some.inj ht'
    refine ⟨hafter.1, fun h' => ?_⟩
    rcases hdone i h' with h' | h'
    · cases hends h'
    · cases h'.2.1
  | @interrupt i c p q h =>
    obtain ⟨hafter, hends⟩ := hs i _ h
    refine hs.goto i hothers (fun t' ht' => ?_)
    obtain rfl := Option.some.inj ht'
    refine ⟨hafter.2, fun h' => ?_⟩
    rcases hdone i h' with h' | h'
    · cases hends h'
    · cases h'.2.1
  | @unlock i c p h =>
    obtain ⟨hafter, hends⟩ := hs i _ h
    refine hs.goto i hothers (fun t' ht' => ?_)
    obtain rfl := Option.some.inj ht'
    refine ⟨hafter, fun h' => ?_⟩
    rcases hdone i h' with h' | h'
    · obtain ⟨m, rfl, hp⟩ := hends h'
      exact hp.mono (Nat.le_succ m)
    · cases h'.2.1
  | @act i c u k h =>
    obtain ⟨hafter, hends⟩ := hs i _ h
    refine hs.goto i hothers (fun t' ht' => ?_)
    obtain rfl := Option.some.inj ht'
    refine ⟨(hafter s.mem).2, fun h' => ?_⟩
    rcases hdone i h' with h' | h'
    · obtain ⟨m, rfl, hk⟩ := hends h'
      exact (hk s.mem).mono (Nat.le_succ m)
    · exact (hafter s.mem).1 h'.2.2
  | @finish i c h =>
    refine hs.goto i hothers (fun t' ht' => ?_)
    cases ht'

/-- Such a task is held up by nobody. -/
theorem next_of_ends (code : κ → Code σ ε Unit) {i : ι} {t : Task κ σ ε}
    (ht : s.tasks i = some t) (hends : t.rest.Ends n) :
    ∃ e s', next code s i .go = some (e, s') ∧
      (s'.tasks i = none ∨ ∃ m t', n = m + 1 ∧ s'.tasks i = some t' ∧ t'.rest.Ends m) := by
  obtain ⟨c, rest⟩ := t
  cases rest with
  | ret a =>
    refine ⟨⟨.finish, i, c⟩, s.goto i none, by simp [next, ht], Or.inl ?_⟩
    exact Function.update_self _ _ _
  | fault e => cases hends
  | lock p q => cases hends
  | unlock p =>
    obtain ⟨m, rfl, hp⟩ := hends
    refine ⟨_, _, by simp only [next, ht]; rfl, Or.inr ⟨m, ⟨c, p⟩, rfl, ?_, hp⟩⟩
    exact Function.update_self _ _ _
  | act u k =>
    obtain ⟨m, rfl, hk⟩ := hends
    refine ⟨_, _, by simp only [next, ht]; rfl, Or.inr ⟨m, ⟨c, k s.mem⟩, rfl, ?_, hk s.mem⟩⟩
    exact Function.update_self _ _ _

end System

end Aesd.Base
