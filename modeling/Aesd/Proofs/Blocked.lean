import Aesd.Proofs.Handles
import Aesd.Proofs.Receiving

namespace Aesd.Proofs
open Base Server

/-- The session has taken `write_lock` for a command and not given it back. -/
def Place.holds : Place → Bool
  | .inside _ => true
  | .sought _ => true
  | _ => false

/-- Only if `failed` is set a write has, and then no command is behind it. -/
def Spoken (calls : List Call) (failed : Bool) : Prop :=
  ∀ before bytes after, calls = before ++ .write bytes true :: after →
    failed = true ∧ ∀ c ∈ after, command c = none

section Calls
variable {σ : Type} {sys : Sys σ} {i : Nat} {place place' : Place} {m m' : Shared σ}

/-- A session that goes on from one place to another with a call: without the lock it
gives no command, and with it only a failed write makes it forget that it has it. -/
inductive Speaks (place place' : Place) : Call → Prop
  | aside {c : Call} (hc : command c = none) (hplace : place.holds = false)
      (hplace' : place'.holds = false) : Speaks place place' c
  | command {c : Call} (hc : ∀ bytes, c ≠ .write bytes true) (hplace : place.holds = true) :
      Speaks place place' c
  | refused {bytes : List UInt8} (hplace : place.holds = true) (hplace' : place'.holds = false) :
      Speaks place place' (.write bytes true)

theorem holds_afterOpen {next : Fd → Place} (hnext : ∀ fd, (next fd).holds = false)
    (r : Except Fault Fd) : (afterOpen next r).holds = false := by
  cases r with
  | ok fd => exact hnext fd
  | error => rfl

theorem holds_afterRead {seek : Bool} {fd : Fd} {r : Except Fault (Result (Nat × List UInt8))}
    (h : AfterRead seek fd r place) : place.holds = false := by
  cases h <;> rfl

theorem holds_afterSend (seek : Bool) (fd : Fd) (bytes : List UInt8)
    (r : Except Fault (Result Nat)) : (afterSend seek fd bytes r).holds = false := by
  unfold afterSend
  split <;> rfl

theorem speaks_of_act (h : Act sys.shared i place m place' m') :
    ∃ c, m'.calls = m.calls ++ [c] ∧ Speaks place place' c := by
  cases h with
  | openFirst => exact ⟨.openDevice, rfl, .aside rfl rfl (holds_afterOpen (fun _ => rfl) _)⟩
  | recv => exact ⟨.recv i, rfl, .aside rfl rfl rfl⟩
  | @ioctl _ _ c o => exact ⟨.ioctl c o, rfl, .command (by simp) rfl⟩
  | @write _ fd bytes =>
    refine ⟨.write bytes (refusedWrite (sys.write fd bytes m.inner).1), rfl, ?_⟩
    change Speaks _ (if refusedWrite (sys.write fd bytes m.inner).1 = true then _ else _) _
    cases refusedWrite (sys.write fd bytes m.inner).1 with
    | true => exact .refused rfl rfl
    | false => exact .command (by simp) rfl
  | closeFirst => exact ⟨.closeDevice, rfl, .aside rfl rfl rfl⟩
  | openLast => exact ⟨.openDevice, rfl, .aside rfl rfl (holds_afterOpen (fun _ => rfl) _)⟩
  | read h => exact ⟨.read, rfl, .aside rfl rfl (holds_afterRead h)⟩
  | @send _ seek fd bytes =>
    exact ⟨.send i bytes, rfl, .aside rfl rfl (holds_afterSend seek fd bytes _)⟩
  | complete => exact ⟨.complete i, rfl, .aside rfl rfl rfl⟩
  | closeLast => exact ⟨.closeDevice, rfl, .aside rfl rfl rfl⟩
  | closeSought => exact ⟨.closeDevice, rfl, .aside rfl rfl rfl⟩

end Calls

section Spoken
variable {calls before after : List Call} {c x : Call}

theorem concat_eq_split (h : calls ++ [c] = before ++ x :: after) :
    (after = [] ∧ c = x) ∨ ∃ rest, after = rest ++ [c] ∧ calls = before ++ x :: rest := by
  rcases List.eq_nil_or_concat' after with rfl | ⟨rest, last, rfl⟩
  · exact Or.inl ⟨rfl, (List.append_singleton_inj.mp h).2⟩
  · right
    have hsplit : calls ++ [c] = (before ++ x :: rest) ++ [last] := by simpa using h
    obtain ⟨hcalls, rfl⟩ := List.append_singleton_inj.mp hsplit
    exact ⟨rest, rfl, hcalls⟩

theorem Spoken.aside {failed : Bool} (h : Spoken calls failed) (hc : command c = none) :
    Spoken (calls ++ [c]) failed := by
  intro before bytes after hcalls
  rcases concat_eq_split hcalls with ⟨_, rfl⟩ | ⟨rest, rfl, hrest⟩
  · cases hc
  · obtain ⟨hfailed, hnone⟩ := h before bytes rest hrest
    refine ⟨hfailed, ?_⟩
    intro c' hmem
    rcases List.mem_append.mp hmem with hmem | hmem
    · exact hnone c' hmem
    · rw [List.mem_singleton.mp hmem]
      exact hc

theorem Spoken.command (h : Spoken calls false) (hc : ∀ bytes, c ≠ .write bytes true) :
    Spoken (calls ++ [c]) false := by
  intro before bytes after hcalls
  rcases concat_eq_split hcalls with ⟨_, he⟩ | ⟨rest, _, hrest⟩
  · exact absurd he (hc bytes)
  · cases (h before bytes rest hrest).1

theorem Spoken.refused (h : Spoken calls false) (bytes : List UInt8) :
    Spoken (calls ++ [.write bytes true]) true := by
  intro before bytes' after hcalls
  rcases concat_eq_split hcalls with ⟨rfl, _⟩ | ⟨rest, _, hrest⟩
  · exact ⟨rfl, fun c hc => absurd hc List.not_mem_nil⟩
  · cases (h before bytes' rest hrest).1

end Spoken

/-- Who has `write_lock`. At most one session has it for a command, and none does once a
write has failed: the one that made it has it still. -/
structure Sole {σ : Type} (sys : Sys σ) (stage : Nat → Place) (failed : Bool)
    (pool : System Nat Nat (Shared σ) Fault) : Prop where
  staged : System.Staged (course sys.shared) (fun place => ∃ seek, place = .finished seek)
    stage pool
  own : System.Own pool
  holder : ∀ i, (stage i).holds = true → failed = false ∧ pool.owner = some i
  kept : failed = true → ∃ i, pool.owner = some i
  spoken : Spoken pool.mem.calls failed

section Sole
variable {σ : Type} {sys : Sys σ} {limit : Nat} {stage : Nat → Place} {failed : Bool}
  {pool pool' : System Nat Nat (Shared σ) Fault}

theorem sole_start (inner : σ) (flags : Nat → Nat) :
    Sole sys (fun _ => .start) false (.start ⟨inner, flags, []⟩) where
  staged i t ht := by cases ht
  own i t ht := by cases ht
  holder i hi := by cases hi
  kept h := by cases h
  spoken before bytes after h := by cases before <;> cases h

theorem Sole.launch (hs : Sole sys stage failed pool) (i : Nat) :
    Sole sys (Function.update stage i .start) failed
      (pool.goto i (some ⟨i, dataProcessor sys.shared limit i⟩)) where
  staged := by
    apply hs.staged.goto
    intro t ht
    obtain rfl := Option.some.inj ht
    exact course_dataProcessor sys.shared limit i
  own j t ht := by
    by_cases hj : j = i
    · subst hj
      simp only [System.goto, Function.update_self, Option.some.injEq] at ht
      rw [← ht]
    · simp only [System.goto, Function.update_of_ne hj] at ht
      exact hs.own j t ht
  holder j hj := by
    by_cases he : j = i
    · rw [he, Function.update_self] at hj
      cases hj
    · rw [Function.update_of_ne he] at hj
      exact hs.holder j hj
  kept := hs.kept
  spoken := hs.spoken

theorem Sole.flags (hs : Sole sys stage failed pool) (f : Nat → Nat) :
    Sole sys stage failed { pool with mem := { pool.mem with threadComplete := f } } :=
  ⟨hs.staged, hs.own, hs.holder, hs.kept, hs.spoken⟩

/-- A step of session `i` to `place'`. Nobody else can have the lock if it has it before
or after. -/
theorem sole_update {i : Nat} {place' : Place} {failed' : Bool}
    (hstaged : System.Staged (course sys.shared) (fun place => ∃ seek, place = .finished seek)
      (Function.update stage i place') pool') (hown : System.Own pool')
    (hothers : ∀ j, j ≠ i → (stage j).holds = true → failed' = false ∧ pool'.owner = some j)
    (hself : place'.holds = true → failed' = false ∧ pool'.owner = some i)
    (hkept : failed' = true → ∃ j, pool'.owner = some j)
    (hspoken : Spoken pool'.mem.calls failed') :
    Sole sys (Function.update stage i place') failed' pool' := by
  refine ⟨hstaged, hown, ?_, hkept, hspoken⟩
  intro j hj
  by_cases he : j = i
  · subst he
    rw [Function.update_self] at hj
    exact hself hj
  · rw [Function.update_of_ne he] at hj
    exact hothers j he hj

theorem Sole.step (hs : Sole sys stage failed pool) {e : Event Nat Nat} (hkind : e.kind ≠ .invoke)
    (h : System.Step (dataProcessor sys.shared limit) pool e pool') :
    ∃ stage' failed', Sole sys stage' failed' pool' := by
  obtain ⟨place', hmoves, hstaged⟩ :=
    hs.staged.step h (fun _ => course_dataProcessor sys.shared limit e.call)
  have hcall := hs.own.call_eq h hkind
  have hown := hs.own.step h hcall
  have halone : ∀ j, pool.owner = some e.task → j ≠ e.task → (stage j).holds = true → False := by
    intro j howner hj hholds
    exact hj (Option.some.inj ((hs.holder j hholds).2.symm.trans howner))
  cases h with
  | invoke => exact absurd rfl hkind
  | @acquire i c p q htask hfree =>
    have hnone : failed = false := by
      cases failed with
      | false => rfl
      | true =>
        obtain ⟨j, hj⟩ := hs.kept rfl
        cases hfree.symm.trans hj
    refine ⟨_, failed, sole_update hstaged hown ?_ (fun _ => ⟨hnone, rfl⟩) (fun _ => ⟨i, rfl⟩)
      hs.spoken⟩
    intro j _ hholds
    cases hfree.symm.trans (hs.holder j hholds).2
  | @interrupt i c p q htask =>
    obtain ⟨rfl, _⟩ := hmoves
    rw [Function.update_eq_self] at hstaged
    exact ⟨_, failed, hstaged, hown, hs.holder, hs.kept, hs.spoken⟩
  | @finish i c htask =>
    obtain ⟨_, rfl, _⟩ := hmoves
    rw [Function.update_eq_self] at hstaged
    exact ⟨_, failed, hstaged, hown, hs.holder, hs.kept, hs.spoken⟩
  | @unlock i c p htask =>
    have hholds : (stage i).holds = true ∧ place'.holds = false := by
      obtain ⟨⟨fd, ⟨hplace, rfl⟩ | ⟨hplace, rfl⟩⟩, _⟩ := hmoves
      · rw [show stage i = _ from hplace]
        exact ⟨rfl, rfl⟩
      · rw [show stage i = _ from hplace]
        exact ⟨rfl, rfl⟩
    obtain ⟨rfl, howner⟩ := hs.holder i hholds.1
    refine ⟨_, false, sole_update hstaged hown ?_ ?_ (by simp) hs.spoken⟩
    · intro j hj hj'
      exact (halone j howner hj hj').elim
    · intro hplace
      cases hplace.symm.trans hholds.2
  | @act i c u k htask =>
    obtain rfl : c = i := hcall
    obtain ⟨call, hcalls, hspeaks⟩ := speaks_of_act hmoves
    change (u pool.mem).calls = _ at hcalls
    cases hspeaks with
    | aside hc hplace hplace' =>
      refine ⟨_, failed, sole_update hstaged hown (fun j _ => hs.holder j) ?_ hs.kept ?_⟩
      · intro hholds
        cases hholds.symm.trans hplace'
      · change Spoken (u pool.mem).calls failed
        rw [hcalls]
        exact hs.spoken.aside hc
    | command hc hplace =>
      obtain ⟨rfl, howner⟩ := hs.holder c hplace
      refine ⟨_, false, sole_update hstaged hown (fun j _ => hs.holder j) (fun _ => ⟨rfl, howner⟩)
        hs.kept ?_⟩
      change Spoken (u pool.mem).calls false
      rw [hcalls]
      exact hs.spoken.command hc
    | @refused bytes hplace hplace' =>
      obtain ⟨rfl, howner⟩ := hs.holder c hplace
      refine ⟨_, true, sole_update hstaged hown ?_ ?_ (fun _ => ⟨c, howner⟩) ?_⟩
      · intro j hj hj'
        exact (halone j howner hj hj').elim
      · intro hholds
        cases hholds.symm.trans hplace'
      · change Spoken (u pool.mem).calls true
        rw [hcalls]
        exact hs.spoken.refused bytes

theorem sole_of_runs {inner : σ} {flags : Nat → Nat} {Ok : Process σ → Process σ → Prop}
    {s : Process σ}
    (hrun : Process.Runs (dataProcessor sys.shared limit) Ok (.start ⟨inner, flags, []⟩) s) :
    ∃ stage failed, Sole sys stage failed s.pool := by
  have hlasting : Lasting sys limit
      (fun _ pool => ∃ stage failed, Sole sys stage failed pool) := by
    refine ⟨?_, ?_, ?_⟩
    · intro _ pool e pool' hs hkind h
      obtain ⟨stage, failed, hs⟩ := hs
      exact hs.step hkind h
    · intro _ pool i hs _ _
      obtain ⟨stage, failed, hs⟩ := hs
      exact ⟨_, _, hs.launch i⟩
    · intro _ pool f hs
      obtain ⟨stage, failed, hs⟩ := hs
      exact ⟨_, _, hs.flags f⟩
  exact hlasting.of_runs ⟨_, _, sole_start inner flags⟩ hrun

end Sole

/-- A write to the device that fails is the last command that the server gives. Whatever
system it runs on and whatever becomes of the session that made it, `write_lock` is never
free again, and no session writes or seeks from then on. -/
theorem failed_write_is_last_command {σ : Type} {sys : Sys σ} {limit : Nat} {inner : σ}
    {flags : Nat → Nat} {s : Process σ}
    (hrun : Process.Runs (dataProcessor sys.shared limit) (fun _ _ => True)
      (.start ⟨inner, flags, []⟩) s)
    {before after : List Call} {bytes : List UInt8}
    (hcalls : s.pool.mem.calls = before ++ .write bytes true :: after) :
    s.pool.owner ≠ none ∧ ∀ c ∈ after, command c = none := by
  obtain ⟨stage, failed, hs⟩ := sole_of_runs hrun
  obtain ⟨hfailed, hafter⟩ := hs.spoken before bytes after hcalls
  obtain ⟨i, hi⟩ := hs.kept hfailed
  exact ⟨by simp [hi], hafter⟩

/-- The session whose write failed is over, and the next one waits for the lock. -/
theorem next_session_waits_for_ended :
    ∃ s : Process Unit,
      Process.Runs (dataProcessor (stub [97, 10] .failed).shared 4) (fun _ _ => True)
        (.start ⟨(), fun _ => 0, []⟩) s ∧
      (s.pool.tasks 0).isSome = false ∧ atLock s.pool 1 = true ∧ s.pool.owner ≠ none := by
  have hplay : (play (stub [97, 10] .failed)
        (proceed 4 8 ++ work 0 10 ++ proceed 5 8 ++ work 1 2)).map
      (fun s => (s.pool.mem.calls, (s.pool.tasks 0).isSome, atLock s.pool 1)) =
      some ([.openDevice, .recv 0] ++ .write [97, 10] true :: [.closeDevice, .openDevice, .read,
        .complete 0, .closeDevice, .openDevice, .recv 1], false, true) := by decide +kernel
  obtain ⟨s, hs, hobs⟩ := Option.map_eq_some_iff.mp hplay
  obtain ⟨hcalls, hobs⟩ := Prod.mk.inj hobs
  obtain ⟨htask, hlock⟩ := Prod.mk.inj hobs
  obtain ⟨howner, _⟩ := failed_write_is_last_command (runs_play hs) hcalls
  exact ⟨s, runs_play hs, htask, hlock, howner⟩

end Aesd.Proofs
