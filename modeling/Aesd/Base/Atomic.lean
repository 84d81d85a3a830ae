import Aesd.Base.Lock

namespace Aesd.Base

/-- Where a call stands to its critical section. -/
inductive Phase where
  | before
  | inside
  | after
  deriving DecidableEq

namespace Code
variable {σ τ ε α β : Type}

/-- A step that neither looks at the shared part of the state nor changes it. -/
def Private (update : σ × τ → σ × τ) (next : σ × τ → Code (σ × τ) ε α) : Prop :=
  ∃ (f : τ → τ) (g : τ → Code (σ × τ) ε α),
    (∀ x t, update (x, t) = (x, f t)) ∧ ∀ x t, next (x, t) = g t

/-- The code has one critical section, and outside it goes without the shared part
of the state and does not fault. `Q` is known at the end. With `intr` false, no wait
for the lock is interrupted. -/
def Sectioned (intr : Bool) (Q : Phase → α → Prop) : Phase → Code (σ × τ) ε α → Prop
  | ph, ret a => Q ph a
  | ph, fault _ => ph = .inside
  | ph, lock p q => ph = .before ∧ Sectioned intr Q .inside p ∧
      (intr = true → Sectioned intr Q .after q)
  | ph, unlock p => ph = .inside ∧ Sectioned intr Q .after p
  | ph, act u k => (ph = .inside ∨ Private u k) ∧ ∀ s, Sectioned intr Q ph (k s)

/-- Code on the shared part alone. -/
def onShared : Code σ ε α → Code (σ × τ) ε α
  | ret a => ret a
  | fault e => fault e
  | lock p q => lock p.onShared q.onShared
  | unlock p => unlock p.onShared
  | act u k => act (fun m => (u m.1, m.2)) (fun m => (k m.1).onShared)

def getOwn : Code (σ × τ) ε τ := act id (fun m => ret m.2)

def setOwn (f : τ → τ) : Code (σ × τ) ε Unit := act (fun m => (m.1, f m.2)) (fun _ => ret ())

variable {intr signal : Bool} {ph : Phase}

@[simp] theorem run_getOwn (m : σ × τ) :
    (getOwn : Code (σ × τ) ε τ).run signal m = (.ok m.2, m) := rfl

@[simp] theorem run_setOwn (f : τ → τ) (m : σ × τ) :
    (setOwn f : Code (σ × τ) ε Unit).run signal m = (.ok (), (m.1, f m.2)) := rfl

theorem run_onShared (p : Code σ ε α) (m : σ × τ) :
    (p.onShared : Code (σ × τ) ε α).run signal m =
      ((p.run signal m.1).1, ((p.run signal m.1).2, m.2)) := by
  induction p generalizing m with
  | ret a => rfl
  | fault e => rfl
  | lock p q ihp ihq => cases signal <;> simp [onShared, run, ihp, ihq]
  | unlock p ih => exact ih m
  | act u k ih => exact ih m.1 (u m.1, m.2)

theorem onShared_bind (p : Code σ ε α) (f : α → Code σ ε β) :
    (p >>= f).onShared = (p.onShared >>= fun a => (f a).onShared : Code (σ × τ) ε β) := by
  change (p.bind f).onShared = p.onShared.bind (fun a => (f a).onShared)
  induction p with
  | ret a => rfl
  | fault e => rfl
  | lock p q ihp ihq => simp only [bind, onShared, ihp, ihq]
  | unlock p ih => simp only [bind, onShared, ih]
  | act u k ih => simp only [bind, onShared, ih]

section Sectioned
variable {Q : Phase → α → Prop} {R : Phase → β → Prop}

theorem Sectioned.bind {p : Code (σ × τ) ε α} {f : α → Code (σ × τ) ε β}
    (hp : Sectioned intr Q ph p) (hf : ∀ ph a, Q ph a → Sectioned intr R ph (f a)) :
    Sectioned intr R ph (p >>= f) := by
  change Sectioned intr R ph (p.bind f)
  induction p generalizing ph with
  | ret a => exact hf ph a hp
  | fault e => exact hp
  | lock p q ihp ihq => exact ⟨hp.1, ihp hp.2.1, fun hi => ihq (hp.2.2 hi)⟩
  | unlock p ih => exact ⟨hp.1, ih hp.2⟩
  | act u k ih =>
    refine ⟨hp.1.imp_right ?_, fun s => ih s (hp.2 s)⟩
    intro ⟨g, next, hu, hk⟩
    exact ⟨g, fun t => (next t).bind f, hu, fun x t => congrArg (·.bind f) (hk x t)⟩

/-- Code that does not touch the lock may stand inside. -/
theorem Inner.sectioned {m : σ → Nat} {p : Code σ ε α} {f : α → Code (σ × τ) ε β}
    (hp : Inner m p) (hf : ∀ a, Sectioned intr R .inside (f a)) :
    Sectioned intr R .inside (p.onShared >>= f) := by
  change Sectioned intr R .inside (p.onShared.bind f)
  induction p with
  | ret a => exact hf a
  | fault e => rfl
  | lock p q => exact hp.elim
  | unlock p => exact hp.elim
  | act u k ih => exact ⟨Or.inl rfl, fun s => ih s.1 (hp s.1).2⟩

theorem sectioned_lock :
    Sectioned intr (fun ph interrupted => ph = if interrupted then .after else .inside) .before
      ((lockInterruptible : Code σ ε Bool).onShared : Code (σ × τ) ε Bool) :=
  ⟨rfl, rfl, fun _ => rfl⟩

/-- Without interruptions the wait always ends inside. -/
theorem sectioned_lock_uninterrupted :
    Sectioned false (fun ph interrupted => ph = .inside ∧ interrupted = false) .before
      ((lockInterruptible : Code σ ε Bool).onShared : Code (σ × τ) ε Bool) :=
  ⟨rfl, ⟨rfl, rfl⟩, by simp⟩

theorem sectioned_release :
    Sectioned intr (fun ph _ => ph = .after) .inside
      ((release : Code σ ε Unit).onShared : Code (σ × τ) ε Unit) :=
  ⟨rfl, rfl⟩

theorem sectioned_getOwn (ph : Phase) :
    Sectioned intr (fun ph' _ => ph' = ph) ph (getOwn : Code (σ × τ) ε τ) :=
  ⟨Or.inr ⟨id, ret, fun _ _ => rfl, fun _ _ => rfl⟩, fun _ => rfl⟩

theorem sectioned_setOwn (ph : Phase) (f : τ → τ) :
    Sectioned intr (fun ph' _ => ph' = ph) ph (setOwn f : Code (σ × τ) ε Unit) :=
  ⟨Or.inr ⟨f, fun _ => ret (), fun _ _ => rfl, fun _ _ => rfl⟩, fun _ => rfl⟩

/-- Behind the critical section the shared part makes no difference. -/
theorem Sectioned.run_after {p : Code (σ × τ) ε α} (hp : Sectioned intr Q .after p) (x₀ : σ)
    (t : τ) : ∃ a t', ∀ signal x, p.run signal (x, t) = (.ok a, (x, t')) := by
  induction p generalizing t with
  | ret a => exact ⟨a, t, fun _ _ => rfl⟩
  | fault e => cases hp
  | lock p q => cases hp.1
  | unlock p => cases hp.1
  | act u k ih =>
    obtain ⟨f, g, hu, hk⟩ := hp.1.resolve_left (by simp)
    obtain ⟨a, t', hrun⟩ := ih (x₀, t) (hp.2 _) (f t)
    refine ⟨a, t', fun signal x => ?_⟩
    rw [run, hu, hk, ← hk x₀]
    exact hrun signal x

end Sectioned

section Focus
variable {ι : Type} [DecidableEq ι]

/-- The code of task `i`, where each task has a private part of its own. -/
def focus (i : ι) : Code (σ × τ) ε α → Code (σ × (ι → τ)) ε α
  | ret a => ret a
  | fault e => fault e
  | lock p q => lock (p.focus i) (q.focus i)
  | unlock p => unlock (p.focus i)
  | act u k => act
      (fun m => ((u (m.1, m.2 i)).1, Function.update m.2 i (u (m.1, m.2 i)).2))
      (fun m => (k (m.1, m.2 i)).focus i)

theorem run_focus (i : ι) (p : Code (σ × τ) ε α) (m : σ × (ι → τ)) :
    (p.focus i).run signal m =
      ((p.run signal (m.1, m.2 i)).1, ((p.run signal (m.1, m.2 i)).2.1,
        Function.update m.2 i (p.run signal (m.1, m.2 i)).2.2)) := by
  induction p generalizing m with
  | ret a => simp [focus, run]
  | fault e => simp [focus, run]
  | lock p q ihp ihq => cases signal <;> simp [focus, run, ihp, ihq]
  | unlock p ih => exact ih m
  | act u k ih => simp [focus, run, ih]

theorem focus_eq_ret {i : ι} {p : Code (σ × τ) ε α} {a : α} (h : p.focus i = ret a) :
    p = ret a := by
  cases p with
  | ret b =>
    cases h
    rfl
  | fault | lock | unlock | act => cases h

theorem focus_eq_fault {i : ι} {p : Code (σ × τ) ε α} {e : ε} (h : p.focus i = fault e) :
    p = fault e := by
  cases p with
  | fault e' =>
    cases h
    rfl
  | ret | lock | unlock | act => cases h

theorem focus_eq_lock {i : ι} {p : Code (σ × τ) ε α} {a b : Code (σ × (ι → τ)) ε α}
    (h : p.focus i = lock a b) : ∃ p₁ p₂, p = lock p₁ p₂ ∧ a = p₁.focus i ∧ b = p₂.focus i := by
  cases p with
  | lock p q =>
    cases h
    exact ⟨p, q, rfl, rfl, rfl⟩
  | ret | fault | unlock | act => cases h

theorem focus_eq_unlock {i : ι} {p : Code (σ × τ) ε α} {a : Code (σ × (ι → τ)) ε α}
    (h : p.focus i = unlock a) : ∃ p₁, p = unlock p₁ ∧ a = p₁.focus i := by
  cases p with
  | unlock p =>
    cases h
    exact ⟨p, rfl, rfl⟩
  | ret | fault | lock | act => cases h

theorem focus_eq_act {i : ι} {p : Code (σ × τ) ε α} {v : σ × (ι → τ) → σ × (ι → τ)}
    {l : σ × (ι → τ) → Code (σ × (ι → τ)) ε α} (h : p.focus i = act v l) :
    ∃ u k, p = act u k ∧
      v = (fun m => ((u (m.1, m.2 i)).1, Function.update m.2 i (u (m.1, m.2 i)).2)) ∧
      l = fun m => (k (m.1, m.2 i)).focus i := by
  cases p with
  | act u k =>
    cases h
    exact ⟨u, k, rfl, rfl, rfl⟩
  | ret | fault | lock | unlock => cases h

end Focus

end Code

/-- A call that gets its turn: the task, the call, and whether its wait for the lock
was interrupted. -/
structure Turn (ι κ : Type) where
  task : ι
  call : κ
  signal : Bool
  deriving DecidableEq

namespace System
variable {ι κ σ τ ε : Type}

/-- What the system has done on its way to a state. -/
inductive Log [DecidableEq ι] (code : κ → Code σ ε Unit) (Allowed : Event ι κ → Prop)
    (s₀ : System ι κ σ ε) : List (Event ι κ) → System ι κ σ ε → Prop
  | start : Log code Allowed s₀ [] s₀
  | step {es : List (Event ι κ)} {s s' : System ι κ σ ε} {e : Event ι κ}
      (hs : Log code Allowed s₀ es s) (he : Allowed e) (h : Step code s e s') :
      Log code Allowed s₀ (es ++ [e]) s'

/-- What a schedule makes the system do, and the state that it leads to, if all of it
passes the check. -/
def log [DecidableEq ι] (code : κ → Code σ ε Unit) (check : Event ι κ → Bool)
    (es : List (Event ι κ)) (s : System ι κ σ ε) :
    List (ι × Choice κ) → Option (List (Event ι κ) × System ι κ σ ε)
  | [] => some (es, s)
  | (i, ch) :: schedule =>
    match next code s i ch with
    | some (e, s') => if check e then log code check (es ++ [e]) s' schedule else none
    | none => none

theorem Log.log [DecidableEq ι] {code : κ → Code σ ε Unit} {Allowed : Event ι κ → Prop}
    {check : Event ι κ → Bool} {s₀ s s' : System ι κ σ ε} {es es' : List (Event ι κ)}
    (hs : Log code Allowed s₀ es s) (hok : ∀ e, check e = true → Allowed e)
    {schedule : List (ι × Choice κ)} (h : System.log code check es s schedule = some (es', s')) :
    Log code Allowed s₀ es' s' := by
  induction schedule generalizing s es with
  | nil =>
    obtain ⟨rfl, rfl⟩ := Prod.mk.inj (Option.some.inj h)
    exact hs
  | cons c schedule ih =>
    simp only [System.log] at h
    split at h
    · split at h
      · exact ih (hs.step (hok _ ‹_›) (step_of_next ‹_›)) h
      · cases h
    · cases h

/-- The turns in the order in which they came. -/
def turns (es : List (Event ι (ι × κ))) : List (Turn ι κ) :=
  es.filterMap (fun e => match e.kind with
    | .acquire => some ⟨e.task, e.call.2, false⟩
    | .interrupt => some ⟨e.task, e.call.2, true⟩
    | _ => none)

theorem turns_append {es : List (Event ι (ι × κ))} {e : Event ι (ι × κ)} :
    turns (es ++ [e]) = turns es ++ turns [e] := List.filterMap_append

theorem turns_append_none {es : List (Event ι (ι × κ))} {e : Event ι (ι × κ)}
    (h : turns [e] = []) : turns (es ++ [e]) = turns es := by
  rw [turns_append, h, List.append_nil]

variable [DecidableEq ι]

/-- The calls of task `i` that have had their turn. -/
def turnsOf (i : ι) (es : List (Event ι (ι × κ))) : List κ :=
  ((turns es).filter (fun t => t.task = i)).map Turn.call

/-- The calls of task `i` that have returned. -/
def returnsOf (i : ι) (es : List (Event ι (ι × κ))) : List κ :=
  (es.filter (fun e => decide (e.kind = .finish) && decide (e.task = i))).map (fun e => e.call.2)

/-- A call with nobody else around. -/
def alone (body : κ → Code (σ × τ) ε Unit) (m : σ × (ι → τ)) (t : Turn ι κ) : σ × (ι → τ) :=
  (((body t.call).focus t.task).run t.signal m).2

/-- Calls one after the other. -/
def oneByOne (body : κ → Code (σ × τ) ε Unit) (ts : List (Turn ι κ)) (m : σ × (ι → τ)) :
    σ × (ι → τ) :=
  ts.foldl (alone body) m

/-- One after the other, the calls all return. -/
def Return (body : κ → Code (σ × τ) ε Unit) : List (Turn ι κ) → σ × (ι → τ) → Prop
  | [], _ => True
  | t :: ts, m =>
    ((body t.call).run t.signal (m.1, m.2 t.task)).1 = .ok () ∧ Return body ts (alone body m t)

/-- The code of a call of a task. -/
def ofTask (body : κ → Code (σ × τ) ε Unit) (c : ι × κ) : Code (σ × (ι → τ)) ε Unit :=
  (body c.2).focus c.1

/-- How what is left of a call stands to the state `m` in which the turns so far, one
after the other, leave everything. `I` holds of the shared part between turns, and `R`
says that all of these turns come to their end. -/
inductive Stands (body : κ → Code (σ × τ) ε Unit) (I : σ → Prop) (R : Prop)
    (mem m : σ × (ι → τ)) (i : ι) (c : κ) : Phase → Code (σ × τ) ε Unit → Prop
  | before {p : Code (σ × τ) ε Unit}
      (h : ∀ signal x, p.run signal (x, mem.2 i) = (body c).run signal (x, m.2 i)) :
      Stands body I R mem m i c .before p
  | inside {p : Code (σ × τ) ε Unit} {x : σ} {t : τ} (hx : I x)
      (hp : p.run false (mem.1, mem.2 i) = (body c).run false (x, t))
      (hend : ((body c).run false (x, t)).2 = (m.1, m.2 i))
      (hR : ((body c).run false (x, t)).1 = .ok () → R) : Stands body I R mem m i c .inside p
  | after {p : Code (σ × τ) ε Unit}
      (h : ∀ signal x, p.run signal (x, mem.2 i) = (.ok (), (x, m.2 i))) :
      Stands body I R mem m i c .after p

/-- What the serial run has to say about a task. -/
def Follows (body : κ → Code (σ × τ) ε Unit) (intr : κ → Bool) (I : σ → Prop) (R : Prop)
    (mem m : σ × (ι → τ)) (owner : Option ι) (es : List (Event ι (ι × κ))) (i : ι) :
    Option (Task (ι × κ) (σ × (ι → τ)) ε) → Prop
  | none => mem.2 i = m.2 i ∧ owner ≠ some i ∧ turnsOf i es = returnsOf i es
  | some t => t.call.1 = i ∧ ∃ ph p, t.rest = p.focus i ∧
      p.Sectioned (intr t.call.2) (fun ph _ => ph = .after) ph ∧ (owner = some i ↔ ph = .inside) ∧
      Stands body I R mem m i t.call.2 ph p ∧
      turnsOf i es = returnsOf i es ++ (if ph = .before then [] else [t.call.2])

/-- The system is as if the turns so far had been taken one after the other, but for
what the calls in progress still have to do. -/
structure Serial (body : κ → Code (σ × τ) ε Unit) (intr : κ → Bool) (I : σ → Prop) (R : Prop)
    (es : List (Event ι (ι × κ))) (s : System ι (ι × κ) (σ × (ι → τ)) ε)
    (m : σ × (ι → τ)) : Prop where
  free : s.owner = none → s.mem.1 = m.1 ∧ I m.1 ∧ R
  tasks : ∀ i, Follows body intr I R s.mem m s.owner es i (s.tasks i)

section Serial
variable {body : κ → Code (σ × τ) ε Unit} {intr : κ → Bool} {I : σ → Prop} {R R' : Prop}
  {es : List (Event ι (ι × κ))} {e : Event ι (ι × κ)} {m : σ × (ι → τ)}
  {s s' : System ι (ι × κ) (σ × (ι → τ)) ε}

theorem turnsOf_append (i : ι) : turnsOf i (es ++ [e]) = turnsOf i es ++ turnsOf i [e] := by
  simp [turnsOf, turns_append]

theorem returnsOf_append (i : ι) : returnsOf i (es ++ [e]) = returnsOf i es ++ returnsOf i [e] := by
  simp [returnsOf]

theorem turnsOf_of_ne {i : ι} (hi : i ≠ e.task) : turnsOf i (es ++ [e]) = turnsOf i es := by
  have hnone : turnsOf i [e] = [] := by
    unfold turnsOf turns
    obtain ⟨kind, task, call⟩ := e
    cases kind <;> simp [Ne.symm hi]
  rw [turnsOf_append, hnone, List.append_nil]

theorem returnsOf_of_ne {i : ι} (hi : i ≠ e.task) : returnsOf i (es ++ [e]) = returnsOf i es := by
  simp [returnsOf, Ne.symm hi]

theorem oneByOne_append (m : σ × (ι → τ)) :
    oneByOne body (turns (es ++ [e])) m = oneByOne body (turns [e]) (oneByOne body (turns es) m) := by
  rw [turns_append]
  exact List.foldl_append

theorem return_append {ts : List (Turn ι κ)} {t : Turn ι κ} {m : σ × (ι → τ)} :
    Return body (ts ++ [t]) m ↔ Return body ts m ∧
      ((body t.call).run t.signal ((oneByOne body ts m).1, (oneByOne body ts m).2 t.task)).1 =
        .ok () := by
  induction ts generalizing m with
  | nil => simp [Return, oneByOne]
  | cons t' ts ih =>
    rw [List.cons_append, Return, ih, ← and_assoc]
    rfl

theorem alone_eq (m : σ × (ι → τ)) (t : Turn ι κ) : alone body m t =
    (((body t.call).run t.signal (m.1, m.2 t.task)).2.1,
      Function.update m.2 t.task ((body t.call).run t.signal (m.1, m.2 t.task)).2.2) := by
  rw [alone, Code.run_focus]

/-- Of a task that takes no step only what it shares with others can change. -/
theorem Follows.others {mem' m' : σ × (ι → τ)} {owner owner' : Option ι} {i : ι}
    {t : Option (Task (ι × κ) (σ × (ι → τ)) ε)} {mem : σ × (ι → τ)}
    (h : Follows body intr I R mem m owner es i t) (hi : i ≠ e.task)
    (hmem : mem'.2 i = mem.2 i) (hm : m'.2 i = m.2 i) (howner : owner = some i ↔ owner' = some i)
    (hshared : owner = some i → mem'.1 = mem.1 ∧ m'.1 = m.1) (hR : owner = some i → R → R') :
    Follows body intr I R' mem' m' owner' (es ++ [e]) i t := by
  cases t with
  | none =>
    obtain ⟨hown, hout, horder⟩ := h
    refine ⟨by rw [hmem, hm, hown], mt howner.mpr hout, ?_⟩
    rw [turnsOf_of_ne hi, returnsOf_of_ne hi, horder]
  | some t =>
    obtain ⟨hcall, ph, p, hrest, hp, hph, hstands, horder⟩ := h
    refine ⟨hcall, ph, p, hrest, hp, howner.symm.trans hph, ?_, ?_⟩
    · cases hstands with
      | before h => exact .before (by rw [hmem, hm]; exact h)
      | inside hx hp hend hok =>
        have hown := hph.mpr rfl
        obtain ⟨hmem₁, hm₁⟩ := hshared hown
        exact .inside hx (by rw [hmem₁, hmem]; exact hp) (by rw [hm₁, hm]; exact hend)
          (fun h => hR hown (hok h))
      | after h => exact .after (by rw [hmem, hm]; exact h)
    · rw [turnsOf_of_ne hi, returnsOf_of_ne hi, horder]

/-- A step of one task. -/
theorem Serial.goto (hs : Serial body intr I R es s m) {mem m' : σ × (ι → τ)} {owner : Option ι}
    {inside : ι → Bool} {t : Option (Task (ι × κ) (σ × (ι → τ)) ε)}
    (hmem : ∀ j, j ≠ e.task → mem.2 j = s.mem.2 j) (hm : ∀ j, j ≠ e.task → m'.2 j = m.2 j)
    (howner : ∀ j, j ≠ e.task → (s.owner = some j ↔ owner = some j))
    (hshared : ∀ j, j ≠ e.task → s.owner = some j → mem.1 = s.mem.1 ∧ m'.1 = m.1)
    (hR : ∀ j, s.owner = some j → R → R') (hfree : owner = none → mem.1 = m'.1 ∧ I m'.1 ∧ R')
    (ht : Follows body intr I R' mem m' owner (es ++ [e]) e.task t) :
    Serial body intr I R' (es ++ [e])
      ⟨mem, owner, inside, Function.update s.tasks e.task t⟩ m' where
  free := hfree
  tasks j := by
    by_cases hj : j = e.task
    · subst hj
      simpa using ht
    · simp only [Function.update_of_ne hj]
      exact (hs.tasks j).others hj (hmem j hj) (hm j hj) (howner j hj) (hshared j hj) (hR j)

/-- A step that is nobody's turn and not about the lock. -/
theorem Serial.stay (hs : Serial body intr I R es s m) {mem : σ × (ι → τ)}
    {t : Option (Task (ι × κ) (σ × (ι → τ)) ε)} (hturn : turns [e] = [])
    (hmem : ∀ j, j ≠ e.task → mem.2 j = s.mem.2 j)
    (hshared : s.owner ≠ some e.task → mem.1 = s.mem.1)
    (ht : Follows body intr I R mem m s.owner (es ++ [e]) e.task t) :
    Serial body intr I R (es ++ [e]) { s.goto e.task t with mem := mem }
      (oneByOne body (turns [e]) m) := by
  rw [hturn]
  refine hs.goto hmem (fun _ _ => rfl) (fun _ _ => Iff.rfl) (fun j hj hown => ⟨?_, rfl⟩)
    (fun _ _ h => h) ?_ ht
  · apply hshared
    rw [hown]
    exact fun he => hj (Option.some.inj he)
  · intro (hnone : s.owner = none)
    rw [hshared (by simp [hnone])]
    exact hs.free hnone

theorem Serial.invoke (hs : Serial body intr I R es s m) {i : ι} {c : ι × κ}
    (h : s.tasks i = none) (hcall : c.1 = i)
    (hbody : (body c.2).Sectioned (intr c.2) (fun ph _ => ph = .after) .before) :
    Serial body intr I R (es ++ [⟨.invoke, i, c⟩]) (s.goto i (some ⟨c, ofTask body c⟩))
      (oneByOne body (turns [⟨.invoke, i, c⟩]) m) := by
  have hidle := hs.tasks i
  rw [h] at hidle
  obtain ⟨hown, hout, horder⟩ := hidle
  refine hs.stay rfl (fun _ _ => rfl) (fun _ => rfl) ⟨hcall, .before, body c.2, ?_, hbody, ?_, ?_, ?_⟩
  · rw [ofTask, hcall]
  · exact iff_of_false hout (by simp)
  · exact .before (fun signal x => by rw [hown])
  · simpa [turnsOf_append, returnsOf_append, turnsOf, turns, returnsOf] using horder

theorem Serial.acquire (hs : Serial body intr I R es s m) {i : ι} {c : ι × κ}
    {p q : Code (σ × (ι → τ)) ε Unit} (h : s.tasks i = some ⟨c, .lock p q⟩)
    (hfree : s.owner = none) :
    Serial body intr I (R ∧ ((body c.2).run false (m.1, m.2 i)).1 = .ok ()) (es ++ [⟨.acquire, i, c⟩])
      { s.goto i (some ⟨c, p⟩) with owner := some i, inside := Function.update s.inside i true }
      (oneByOne body (turns [⟨.acquire, i, c⟩]) m) := by
  have htask := hs.tasks i
  rw [h] at htask
  obtain ⟨hcall, ph, p', hrest, hp', hph, hstands, horder⟩ := htask
  obtain ⟨p₁, p₂, rfl, rfl, rfl⟩ := Code.focus_eq_lock hrest.symm
  obtain ⟨rfl, hp₁, _⟩ := hp'
  obtain ⟨hshared, hI, hR⟩ := hs.free hfree
  cases hstands with
  | before hbefore =>
    -- the serial run makes the whole call now
    have hturn : oneByOne body (turns [⟨.acquire, i, c⟩]) m = alone body m ⟨i, c.2, false⟩ := rfl
    rw [hturn, alone_eq]
    have hnobody : ∀ j, s.owner ≠ some j := by simp [hfree]
    refine hs.goto (fun _ _ => rfl) (fun j hj => Function.update_of_ne hj _ _) ?_
      (fun j _ hown => absurd hown (hnobody j)) (fun j hown => absurd hown (hnobody j)) (by simp)
      ⟨hcall, .inside, p₁, rfl, hp₁, by simp, ?_, ?_⟩
    · intro j hj
      simp [hfree, Ne.symm hj]
    · refine .inside (t := m.2 i) hI ?_ (by simp) (fun hok => ⟨hR, hok⟩)
      change p₁.run false (s.mem.1, s.mem.2 i) = _
      rw [hshared]
      exact hbefore false m.1
    · simpa [turnsOf_append, returnsOf_append, turnsOf, turns, returnsOf] using horder

theorem Serial.interrupt (hs : Serial body intr I R es s m) {i : ι} {c : ι × κ}
    {p q : Code (σ × (ι → τ)) ε Unit} (h : s.tasks i = some ⟨c, .lock p q⟩)
    (hintr : intr c.2 = true) :
    Serial body intr I (R ∧ ((body c.2).run true (m.1, m.2 i)).1 = .ok ())
      (es ++ [⟨.interrupt, i, c⟩]) (s.goto i (some ⟨c, q⟩))
      (oneByOne body (turns [⟨.interrupt, i, c⟩]) m) := by
  have htask := hs.tasks i
  rw [h] at htask
  obtain ⟨hcall, ph, p', hrest, hp', hph, hstands, horder⟩ := htask
  obtain ⟨p₁, p₂, rfl, rfl, rfl⟩ := Code.focus_eq_lock hrest.symm
  obtain ⟨rfl, _, hp₂⟩ := hp'
  obtain ⟨⟨⟩, t', hafter⟩ := (hp₂ hintr).run_after s.mem.1 (s.mem.2 i)
  cases hstands with
  | before hbefore =>
    have hrun : (body c.2).run true (m.1, m.2 i) = (.ok (), (m.1, t')) :=
      (hbefore true m.1).symm.trans (hafter true m.1)
    have hturn : oneByOne body (turns [⟨.interrupt, i, c⟩]) m = alone body m ⟨i, c.2, true⟩ := rfl
    rw [hturn, alone_eq]
    dsimp only
    rw [hrun]
    refine hs.goto (fun _ _ => rfl) (fun j hj => Function.update_of_ne hj _ _) (fun _ _ => Iff.rfl)
      (fun _ _ _ => ⟨rfl, rfl⟩) (fun _ _ h => ⟨h, rfl⟩) ?_
      ⟨hcall, .after, p₂, rfl, hp₂ hintr, hph.trans (by simp), ?_, ?_⟩
    · intro hnone
      obtain ⟨hmem, hI, hR⟩ := hs.free hnone
      exact ⟨hmem, hI, hR, rfl⟩
    · exact .after (fun signal x => by simpa using hafter signal x)
    · simpa [turnsOf_append, returnsOf_append, turnsOf, turns, returnsOf] using horder

theorem Serial.unlock (hs : Serial body intr I R es s m) {i : ι} {c : ι × κ}
    {p : Code (σ × (ι → τ)) ε Unit} (h : s.tasks i = some ⟨c, .unlock p⟩)
    (hkeeps : ∀ x t a m', I x → (body c.2).run false (x, t) = (.ok a, m') → I m'.1) :
    Serial body intr I R (es ++ [⟨.unlock, i, c⟩])
      { s.goto i (some ⟨c, p⟩) with owner := none, inside := Function.update s.inside i false }
      (oneByOne body (turns [⟨.unlock, i, c⟩]) m) := by
  have htask := hs.tasks i
  rw [h] at htask
  obtain ⟨hcall, ph, p', hrest, hp', hph, hstands, horder⟩ := htask
  obtain ⟨p₁, rfl, rfl⟩ := Code.focus_eq_unlock hrest.symm
  obtain ⟨rfl, hp₁⟩ := hp'
  have howner := hph.mpr rfl
  obtain ⟨⟨⟩, t', hafter⟩ := hp₁.run_after s.mem.1 (s.mem.2 i)
  cases hstands with
  | @inside _ x t hx hp hend hok =>
    have hbody : (body c.2).run false (x, t) = (.ok (), (s.mem.1, t')) :=
      hp.symm.trans (hafter false s.mem.1)
    rw [hbody] at hend
    obtain ⟨hmem, rfl⟩ := Prod.mk.inj hend
    refine hs.goto (fun _ _ => rfl) (fun _ _ => rfl) ?_ (fun _ _ _ => ⟨rfl, rfl⟩) (fun _ _ h => h)
      (fun _ => ?_) ⟨hcall, .after, p₁, rfl, hp₁, by simp, .after hafter, ?_⟩
    · intro j hj
      simp [howner, Ne.symm hj]
    · refine ⟨hmem, ?_, hok (by rw [hbody])⟩
      change I m.1
      rw [← hmem]
      exact hkeeps x t _ _ hx hbody
    · simpa [turnsOf_append, returnsOf_append, turnsOf, turns, returnsOf] using horder

theorem Serial.act (hs : Serial body intr I R es s m) {i : ι} {c : ι × κ}
    {u : σ × (ι → τ) → σ × (ι → τ)} {k : σ × (ι → τ) → Code (σ × (ι → τ)) ε Unit}
    (h : s.tasks i = some ⟨c, .act u k⟩) :
    Serial body intr I R (es ++ [⟨.act, i, c⟩])
      { s.goto i (some ⟨c, k s.mem⟩) with mem := u s.mem }
      (oneByOne body (turns [⟨.act, i, c⟩]) m) := by
  have htask := hs.tasks i
  rw [h] at htask
  obtain ⟨hcall, ph, p', hrest, hp', hph, hstands, horder⟩ := htask
  obtain ⟨v, l, rfl, rfl, rfl⟩ := Code.focus_eq_act hrest.symm
  obtain ⟨hprivate, hl⟩ := hp'
  refine hs.stay rfl (fun j hj => Function.update_of_ne hj _ _) (fun hout => ?_)
    ⟨hcall, ph, l (s.mem.1, s.mem.2 i), rfl, hl _, hph, ?_, ?_⟩
  · obtain ⟨f, g, hv, _⟩ := hprivate.resolve_left (fun hin => hout (hph.mpr hin))
    change (v (s.mem.1, s.mem.2 i)).1 = s.mem.1
    rw [hv]
  · cases hstands with
    | inside hx hp hend hok => exact .inside hx (by simpa [Code.run] using hp) hend hok
    | before hbefore =>
      obtain ⟨f, g, hv, hg⟩ := hprivate.resolve_left (by simp)
      refine .before (fun signal x => ?_)
      have hrun := hbefore signal x
      rw [Code.run, hv, hg] at hrun
      simpa [hv, hg] using hrun
    | after hafter =>
      obtain ⟨f, g, hv, hg⟩ := hprivate.resolve_left (by simp)
      refine .after (fun signal x => ?_)
      have hrun := hafter signal x
      rw [Code.run, hv, hg] at hrun
      simpa [hv, hg] using hrun
  · simpa [turnsOf_append, returnsOf_append, turnsOf, turns, returnsOf] using horder

theorem Serial.finish (hs : Serial body intr I R es s m) {i : ι} {c : ι × κ}
    (h : s.tasks i = some ⟨c, .ret ()⟩) :
    Serial body intr I R (es ++ [⟨.finish, i, c⟩]) (s.goto i none)
      (oneByOne body (turns [⟨.finish, i, c⟩]) m) := by
  have htask := hs.tasks i
  rw [h] at htask
  obtain ⟨hcall, ph, p', hrest, hp', hph, hstands, horder⟩ := htask
  obtain rfl := Code.focus_eq_ret hrest.symm
  obtain rfl : ph = .after := hp'
  cases hstands with
  | after hafter =>
    have hown : s.mem.2 i = m.2 i := by simpa [Code.run] using hafter false s.mem.1
    refine hs.stay rfl (fun _ _ => rfl) (fun _ => rfl) ⟨hown, fun he => by simpa using hph.mp he, ?_⟩
    simpa [turnsOf_append, returnsOf_append, turnsOf, turns, returnsOf] using horder

/-- What a turn adds to the claim that all of them come to their end. -/
theorem Serial.turn {m₀ : σ × (ι → τ)} (hturn : ∃ t, turns [e] = [t] ∧
      (R' ↔ ((body t.call).run t.signal ((oneByOne body (turns es) m₀).1,
        (oneByOne body (turns es) m₀).2 t.task)).1 = .ok ()))
    (hs : Serial body intr I (Return body (turns es) m₀ ∧ R') (es ++ [e]) s' m) :
    Serial body intr I (Return body (turns (es ++ [e])) m₀) (es ++ [e]) s' m := by
  obtain ⟨t, ht, hiff⟩ := hturn
  rw [turns_append, ht, return_append, ← hiff]
  exact hs

/-- Every step keeps the system in line with the turns taken one after the other. -/
theorem Serial.step {m₀ : σ × (ι → τ)}
    (hs : Serial body intr I (Return body (turns es) m₀) es s (oneByOne body (turns es) m₀))
    (h : Step (ofTask body) s e s')
    (hinvoke : e.kind = .invoke → e.call.1 = e.task ∧
      (body e.call.2).Sectioned (intr e.call.2) (fun ph _ => ph = .after) .before)
    (hintr : e.kind = .interrupt → intr e.call.2 = true)
    (hkeeps : ∀ c x t a m', I x → (body c).run false (x, t) = (.ok a, m') → I m'.1) :
    Serial body intr I (Return body (turns (es ++ [e])) m₀) (es ++ [e]) s'
      (oneByOne body (turns (es ++ [e])) m₀) := by
  rw [oneByOne_append]
  cases h with
  | invoke c h =>
    rw [turns_append_none rfl]
    exact hs.invoke h (hinvoke rfl).1 (hinvoke rfl).2
  | acquire h hfree => exact (hs.acquire h hfree).turn ⟨_, rfl, Iff.rfl⟩
  | interrupt h => exact (hs.interrupt h (hintr rfl)).turn ⟨_, rfl, Iff.rfl⟩
  | unlock h =>
    rw [turns_append_none rfl]
    exact hs.unlock h (hkeeps _)
  | act h =>
    rw [turns_append_none rfl]
    exact hs.act h
  | finish h =>
    rw [turns_append_none rfl]
    exact hs.finish h

/-- Calls with one critical section each can be thought of as made one after the
other, in the order of their turns. -/
theorem Log.serial {Allowed : Event ι (ι × κ) → Prop} {m₀ : σ × (ι → τ)}
    (hlog : Log (ofTask body) Allowed (.start m₀) es s) (h₀ : I m₀.1)
    (hinvoke : ∀ e, Allowed e → e.kind = .invoke → e.call.1 = e.task ∧
      (body e.call.2).Sectioned (intr e.call.2) (fun ph _ => ph = .after) .before)
    (hintr : ∀ e, Allowed e → e.kind = .interrupt → intr e.call.2 = true)
    (hkeeps : ∀ c x t a m', I x → (body c).run false (x, t) = (.ok a, m') → I m'.1) :
    Serial body intr I (Return body (turns es) m₀) es s (oneByOne body (turns es) m₀) := by
  induction hlog with
  | start => exact ⟨fun _ => ⟨rfl, h₀, trivial⟩, fun i => ⟨rfl, by simp [System.start], rfl⟩⟩
  | step _ he h ih => exact ih.step h (hinvoke _ he) (hintr _ he) hkeeps

/-- A task between two calls has had one turn for each call that returned, in the same
order, and its own part is what these turns have made of it. -/
theorem Serial.own_eq (hs : Serial body intr I R es s m) {i : ι} (hidle : s.tasks i = none) :
    s.mem.2 i = m.2 i ∧ turnsOf i es = returnsOf i es := by
  have h := hs.tasks i
  rw [hidle] at h
  exact ⟨h.1, h.2.2⟩

/-- A call that has come to a fault comes to it also with nobody else around, and leaves
the shared part the same. -/
theorem Serial.fault (hs : Serial body intr I R es s m) {i : ι} {c : ι × κ} {err : ε}
    (h : s.tasks i = some ⟨c, .fault err⟩) :
    s.owner = some i ∧ ∃ x t m', I x ∧ (body c.2).run false (x, t) = (.error err, m') ∧
      m'.1 = s.mem.1 := by
  have htask := hs.tasks i
  rw [h] at htask
  obtain ⟨_, ph, p', hrest, hp', hph, hstands, _⟩ := htask
  obtain rfl := Code.focus_eq_fault hrest.symm
  obtain rfl : ph = .inside := hp'
  cases hstands with
  | inside hx hp => exact ⟨hph.mpr rfl, _, _, _, hx, hp.symm, rfl⟩

end Serial

end System

end Aesd.Base
