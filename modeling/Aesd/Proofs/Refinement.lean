import Aesd.Base.Critical
import Aesd.Proofs.Together
import Aesd.Server.Interleaved

namespace Aesd.Proofs
open Base Driver Server
open Base.Code (Critical Guarded)

section Driver

theorem guarded_aesdRead (buf : UserDest) (fPos : Int) : Guarded (aesdRead buf fPos) :=
  ⟨_, _, rfl, (inner_aesdReadLocked buf fPos).critical (fun _ => Code.critical_release _)⟩

theorem guarded_aesdWrite (buf : UserSource) (fPos : Int) : Guarded (aesdWrite buf fPos) :=
  ⟨_, _, rfl, (inner_kmalloc _).critical (fun _ => (inner_aesdWriteLocked _ buf fPos).critical
    (fun _ => (inner_kfree _).critical (fun _ => Code.critical_release _)))⟩

/-- A seek that the range check does not refuse. -/
theorem guarded_aesdIoctl (past : Nat → Nat) {writeCmd : Nat} (writeCmdOffset : Nat) (fPos : Int)
    (hc : writeCmd < 10) :
    Guarded (aesdIoctl past AESDCHAR_IOCSEEKTO (some (writeCmd, writeCmdOffset)) fPos) := by
  have hn : ¬ writeCmd ≥ 10 := Nat.not_le.mpr hc
  simp only [aesdIoctl, ↓reduceIte, aesdAdjustFileOffset, seekEntry, hn]
  exact ⟨_, _, rfl, fun _ => ⟨_, rfl⟩⟩

end Driver

section Calls
variable {c : SysCall} {fd : Fd} {w w' : World} {n : Nat} {code : KernelM (Int × c.Returns)}

/-- Inside the driver a call has the lock from its first step to its last. -/
theorem guarded_of_enters (h : c.enters w = some (n, code)) (hrange : c.inRange = true) :
    Guarded code := by
  cases c with
  | read fd count =>
    obtain ⟨⟨m, p⟩, _, heq⟩ := Option.map_eq_some_iff.mp h
    cases heq
    exact (guarded_aesdRead _ p).result _
  | write fd bytes =>
    obtain ⟨⟨m, p⟩, _, heq⟩ := Option.map_eq_some_iff.mp h
    cases heq
    exact (guarded_aesdWrite _ p).result _
  | ioctl fd writeCmd writeCmdOffset =>
    obtain ⟨⟨m, p⟩, _, heq⟩ := Option.map_eq_some_iff.mp h
    cases heq
    exact (guarded_aesdIoctl _ _ p (of_decide_eq_true hrange)).result _
  | openDevice | closeDevice | recv | send | complete => cases h

/-- A call goes to the file that the thread has open. -/
theorem file_of_enters (h : c.enters w = some (n, code)) (huses : c.Uses fd) :
    fd = some n ∧ w.position n ≠ none := by
  have hfile : ∀ {fd' : Fd} {p : Int}, w.file fd' = some (n, p) → fd' = fd →
      fd = some n ∧ w.position n ≠ none := by
    intro fd' p hfile hfd
    obtain ⟨rfl, hp⟩ := eq_of_file hfile
    exact ⟨hfd.symm, by simp [hp]⟩
  cases c with
  | read | write | ioctl =>
    obtain ⟨⟨m, p⟩, hfound, heq⟩ := Option.map_eq_some_iff.mp h
    cases heq
    exact hfile hfound huses
  | openDevice | closeDevice | recv | send | complete => cases h

/-- It depends on the position of that file alone. -/
theorem enters_congr (h : c.enters w = some (n, code)) (huses : c.Uses fd)
    (hposition : w'.position n = w.position n) (hpast : w'.past = w.past) :
    c.enters w' = some (n, code) := by
  have hfile : ∀ fd', fd' = fd → w'.file fd' = w.file fd' := by
    intro fd' hfd
    rw [hfd, (file_of_enters h huses).1]
    simp [World.file, hposition]
  cases c with
  | read fd' count | write fd' bytes =>
    simp only [SysCall.enters] at h ⊢
    rw [hfile fd' huses]
    exact h
  | ioctl fd' writeCmd writeCmdOffset =>
    simp only [SysCall.enters] at h ⊢
    rw [hfile fd' huses, hpast]
    exact h
  | openDevice | closeDevice | recv | send | complete => cases h

end Calls

/-- The memory of the two levels, but for the device, the positions of the files and
what was recorded of the calls. -/
structure Agree (m v : Shared World) : Prop where
  flags : v.threadComplete = m.threadComplete
  past : v.inner.past = m.inner.past
  nextFd : v.inner.nextFd = m.inner.nextFd
  incoming : v.inner.incoming = m.inner.incoming
  outgoing : v.inner.outgoing = m.inner.outgoing
  sent : v.inner.sent = m.inner.sent
  complete : v.inner.threadComplete = m.inner.threadComplete

theorem Agree.refl (m : Shared World) : Agree m m := ⟨rfl, rfl, rfl, rfl, rfl, rfl, rfl⟩

theorem Agree.trans {m v x : Shared World} (h : Agree m v) (h' : Agree v x) : Agree m x :=
  ⟨h'.flags.trans h.flags, h'.past.trans h.past, h'.nextFd.trans h.nextFd,
    h'.incoming.trans h.incoming, h'.outgoing.trans h.outgoing, h'.sent.trans h.sent,
    h'.complete.trans h.complete⟩

/-- Only the device has changed, and the positions of files. -/
structure Driven (v v' : Shared World) (k : Kernel) (position : Nat → Option Int) : Prop where
  agree : Agree v v'
  kernel : v'.inner.kernel = k
  position : v'.inner.position = position

section Atomic
variable {c : SysCall} {n : Nat} {code : KernelM (Int × c.Returns)} {v : Shared World}

/-- What a call does as one step is what its code in the driver does alone. -/
theorem run_of_enters (h : c.enters v.inner = some (n, code)) :
    match code.run false v.inner.kernel with
    | (.ok (pos, r), k) => (c.run World.sys.shared v).1 = .ok r ∧
        Driven v (c.run World.sys.shared v).2 k (Function.update v.inner.position n (some pos))
    | (.error e, k) => (c.run World.sys.shared v).1 = .error e ∧
        Driven v (c.run World.sys.shared v).2 k v.inner.position := by
  cases c with
  | read fd count =>
    obtain ⟨⟨m, p⟩, hfile, heq⟩ := Option.map_eq_some_iff.mp h
    cases heq
    simp only [Code.run_bind, SysCall.run, Sys.shared, traced, World.sys, World.read, hfile]
    rcases (aesdRead ⟨count, none⟩ p).run false v.inner.kernel with ⟨_ | res, k⟩
    · exact ⟨rfl, ⟨rfl, rfl, rfl, rfl, rfl, rfl, rfl⟩, rfl, rfl⟩
    · exact ⟨rfl, ⟨rfl, rfl, rfl, rfl, rfl, rfl, rfl⟩, rfl, rfl⟩
  | write fd bytes =>
    obtain ⟨⟨m, p⟩, hfile, heq⟩ := Option.map_eq_some_iff.mp h
    cases heq
    simp only [Code.run_bind, SysCall.run, Sys.shared, traced, World.sys, World.write, hfile]
    rcases (aesdWrite ⟨bytes, false⟩ p).run false v.inner.kernel with ⟨_ | ⟨ret, p'⟩, k⟩
    · exact ⟨rfl, ⟨rfl, rfl, rfl, rfl, rfl, rfl, rfl⟩, rfl, rfl⟩
    · exact ⟨rfl, ⟨rfl, rfl, rfl, rfl, rfl, rfl, rfl⟩, rfl, rfl⟩
  | ioctl fd writeCmd writeCmdOffset =>
    obtain ⟨⟨m, p⟩, hfile, heq⟩ := Option.map_eq_some_iff.mp h
    cases heq
    simp only [Code.run_bind, SysCall.run, Sys.shared, traced, World.sys, World.ioctl, hfile]
    rcases (aesdIoctl v.inner.past AESDCHAR_IOCSEEKTO (some (writeCmd, writeCmdOffset)) p).run
      false v.inner.kernel with ⟨_ | res, k⟩
    · exact ⟨rfl, ⟨rfl, rfl, rfl, rfl, rfl, rfl, rfl⟩, rfl, rfl⟩
    · exact ⟨rfl, ⟨rfl, rfl, rfl, rfl, rfl, rfl, rfl⟩, rfl, rfl⟩
  | openDevice | closeDevice | recv | send | complete => cases h

end Atomic

/-- What a call that does not enter the driver does on the two levels. -/
structure Short (fd fd' : Fd) (m v m' v' : Shared World) : Prop where
  agree : Agree m' v'
  past : m'.inner.past = m.inner.past
  kernel : m'.inner.kernel = m.inner.kernel ∧ v'.inner.kernel = v.inner.kernel
  passes : Passes fd fd' m.inner m'.inner
  others : ∀ n, n < m.inner.nextFd → fd ≠ some n →
    m'.inner.position n = m.inner.position n ∧ v'.inner.position n = v.inner.position n
  same : ∀ n, v.inner.position n = m.inner.position n →
    v'.inner.position n = m'.inner.position n

section Short
variable {c : SysCall} {fd : Fd} {m v m' v' : Shared World}

/-- One that has nothing to do with files. -/
theorem short_of_same (hopen : ∀ n, fd = some n → m.inner.position n ≠ none)
    (hagree : Agree m' v') (hpast : m'.inner.past = m.inner.past)
    (hkernel : m'.inner.kernel = m.inner.kernel ∧ v'.inner.kernel = v.inner.kernel)
    (hnextFd : m'.inner.nextFd = m.inner.nextFd)
    (hposition : m'.inner.position = m.inner.position ∧ v'.inner.position = v.inner.position) :
    Short fd fd m v m' v' := by
  refine ⟨hagree, hpast, hkernel, ⟨hnextFd.ge, fun _ hn => Or.inl hn, ?_⟩, ?_, ?_⟩
  · apply open_iff_of_same
    · intro n _
      rw [hposition.1]
    · intro n hn
      rw [hposition.1]
      exact hopen n hn
  · intro n _ _
    rw [hposition.1, hposition.2]
    exact ⟨rfl, rfl⟩
  · intro n hn
    rwa [hposition.1, hposition.2]

theorem short_openDevice (h : Agree m v) :
    Short none (some m.inner.nextFd) m v (SysCall.openDevice.run World.sys.shared m).2
      (SysCall.openDevice.run World.sys.shared v).2 := by
  have hnext : v.inner.nextFd = m.inner.nextFd := h.nextFd
  refine ⟨⟨h.flags, h.past, ?_, h.incoming, h.outgoing, h.sent, h.complete⟩, rfl, ⟨rfl, rfl⟩,
    ⟨Nat.le_succ _, ?_, ?_⟩, ?_, ?_⟩
  · exact congrArg (· + 1) hnext
  · intro n hn
    obtain rfl := Option.some.inj hn
    exact Or.inr ⟨rfl, Nat.lt_succ_self _⟩
  · intro n
    change Function.update m.inner.position m.inner.nextFd (some 0) n ≠ none ↔ _
    by_cases hn : n = m.inner.nextFd
    · subst hn
      simp
    · simp [Function.update_of_ne hn, Ne.symm hn]
  · intro n hn _
    constructor
    · exact Function.update_of_ne (Nat.ne_of_lt hn) _ _
    · exact Function.update_of_ne (hnext ▸ Nat.ne_of_lt hn) _ _
  · intro n hn
    change Function.update v.inner.position v.inner.nextFd (some 0) n =
      Function.update m.inner.position m.inner.nextFd (some 0) n
    rw [hnext]
    by_cases hn' : n = m.inner.nextFd
    · subst hn'
      simp
    · simpa [Function.update_of_ne hn'] using hn

theorem short_closeDevice (h : Agree m v) (fd : Fd) :
    Short fd none m v ((SysCall.closeDevice fd).run World.sys.shared m).2
      ((SysCall.closeDevice fd).run World.sys.shared v).2 := by
  cases fd with
  | none =>
    refine short_of_same ?_
      ⟨h.flags, h.past, h.nextFd, h.incoming, h.outgoing, h.sent, h.complete⟩ rfl
      ⟨rfl, rfl⟩ rfl ⟨rfl, rfl⟩
    intro n hn
    cases hn
  | some k =>
    refine ⟨⟨h.flags, h.past, h.nextFd, h.incoming, h.outgoing, h.sent, h.complete⟩, rfl, ⟨rfl, rfl⟩,
      ⟨Nat.le_refl _, ?_, ?_⟩, ?_, ?_⟩
    · intro n hn
      cases hn
    · intro n
      apply (open_iff_of_close (some k) m.inner n).trans
      simp
    · intro n _ hn
      have hne : n ≠ k := fun he => hn (congrArg some he.symm)
      exact ⟨Function.update_of_ne hne _ _, Function.update_of_ne hne _ _⟩
    · intro n hn
      change Function.update v.inner.position k none n = Function.update m.inner.position k none n
      by_cases hn' : n = k
      · subst hn'
        simp
      · simpa [Function.update_of_ne hn'] using hn

/-- The calls that do not enter the driver: those that are not for the device, and those
on a file that is not open. -/
theorem short_call (h : Agree m v) (hnot : c.enters m.inner = none) (huses : c.Uses fd)
    (hopen : ∀ n, fd = some n → m.inner.position n ≠ none) :
    ∃ r, (c.run World.sys.shared m).1 = .ok r ∧ (c.run World.sys.shared v).1 = .ok r ∧
      Short fd (c.after fd r) m v (c.run World.sys.shared m).2 (c.run World.sys.shared v).2 := by
  have hclosed : ∀ fd', m.inner.file fd' = none → fd' = fd → fd = none := by
    intro fd' hfile hfd
    rw [hfd] at hfile
    cases fd with
    | none => rfl
    | some n =>
      have hn := hopen n rfl
      cases hp : m.inner.position n with
      | none => exact absurd hp hn
      | some p => simp [World.file, hp] at hfile
  cases c with
  | openDevice =>
    obtain rfl : fd = none := huses
    refine ⟨some m.inner.nextFd, rfl, ?_, short_openDevice h⟩
    change Except.ok (some v.inner.nextFd) = _
    rw [h.nextFd]
  | closeDevice fd' =>
    obtain rfl : fd' = fd := huses
    exact ⟨(), by cases fd' <;> rfl, by cases fd' <;> rfl, short_closeDevice h fd'⟩
  | recv socketFd =>
    have hin := congrFun h.incoming socketFd
    simp only [SysCall.run, Sys.shared, traced, World.sys, World.recv, hin]
    refine ⟨_, rfl, rfl, short_of_same hopen
      ⟨h.flags, h.past, h.nextFd, ?_, h.outgoing, h.sent, h.complete⟩ rfl ⟨rfl, rfl⟩ rfl
      ⟨rfl, rfl⟩⟩
    exact congrArg (Function.update · socketFd _) h.incoming
  | send socketFd bytes =>
    have hout := congrFun h.outgoing socketFd
    simp only [SysCall.run, Sys.shared, traced, World.sys, World.send, hout]
    refine ⟨_, rfl, rfl, short_of_same hopen
      ⟨h.flags, h.past, h.nextFd, h.incoming, ?_, ?_, h.complete⟩ rfl ⟨rfl, rfl⟩ rfl ⟨rfl, rfl⟩⟩
    · exact congrArg (Function.update · socketFd _) h.outgoing
    · exact congrArg (fun sent => Function.update sent socketFd (sent socketFd ++ _)) h.sent
  | complete socketFd =>
    refine ⟨_, rfl, rfl, short_of_same hopen
      ⟨?_, h.past, h.nextFd, h.incoming, h.outgoing, h.sent, ?_⟩ rfl ⟨rfl, rfl⟩ rfl ⟨rfl, rfl⟩⟩
    · exact congrArg (Function.update · socketFd 1) h.flags
    · exact congrArg (Function.update · socketFd true) h.complete
  | read fd' _ | write fd' _ | ioctl fd' _ _ =>
    have hnone := hclosed fd' (Option.map_eq_none_iff.mp hnot) huses
    obtain rfl : fd' = none := Eq.trans huses hnone
    exact ⟨_, rfl, rfl, short_of_same hopen
      ⟨h.flags, h.past, h.nextFd, h.incoming, h.outgoing, h.sent, h.complete⟩ rfl ⟨rfl, rfl⟩ rfl
      ⟨rfl, rfl⟩⟩

end Short

/-- Where thread `i` is above once a call on file `n` has come to `result` there. -/
inductive Returned (v : World) (i n : Nat) :
    Except Fault (Int × Session) → Task Nat (Shared World) Fault → Prop
  | done {s : Session} {pos : Int} (hposition : v.position n = some pos) (hfd : s.fd = some n) :
      Returned v i n (.ok (pos, s)) ⟨i, s.rest⟩
  | faulted {e : Fault} : Returned v i n (.error e) ⟨i, .fault e⟩

/-- Where thread `i` stands on the two levels. Above, a call takes place when the driver
takes its lock. From then on the thread is ahead there: `rest` is what the driver has
still to do for it, and that leads to what is above already. -/
inductive Stands (w v : World) (device : Option Nat) (i : Nat) :
    Fd → Option Session → Option InDriver → Option (Task Nat (Shared World) Fault) → Prop
  | idle : Stands w v device i none none none none
  | outside {s : Session} : Stands w v device i s.fd (some s) none (some ⟨i, s.rest⟩)
  | entered {fd : Fd} {u : Shared World → Shared World}
      {k : Shared World → Code (Shared World) Fault Unit} {c : SysCall}
      {cont : c.Returns → Code (Shared World) Fault Unit} {huses : c.Uses fd}
      {hcall : ∀ m, u m = (c.run World.sys.shared m).2 ∧
        k m = (Code.ofExcept (c.run World.sys.shared m).1).bind cont}
      {next : ∀ r, Thread World.sys.shared (fun _ => none) (c.after fd r) (cont r)} {n : Nat}
      {code : KernelM (Int × c.Returns)} (henters : c.enters w = some (n, code))
      (hguarded : Guarded (code >>= fun (pos, r) => pure (pos, (⟨_, _, next r⟩ : Session))))
      (hposition : v.position n = w.position n) :
      Stands w v device i fd (some ⟨fd, .act u k, .call c cont huses hcall next⟩)
        (some ⟨n, code >>= fun (pos, r) => pure (pos, ⟨_, _, next r⟩)⟩) (some ⟨i, .act u k⟩)
  | inside {s : Session} {n : Nat} {rest : KernelM (Int × Session)}
      {result : Except Fault (Int × Session)} {task : Task Nat (Shared World) Fault}
      (hdevice : device = some i) (hcritical : Critical rest)
      (hrun : rest.run false w.kernel = (result, v.kernel)) (hreturned : Returned v i n result task) :
      Stands w v device i (some n) (some s) (some ⟨n, rest⟩) (some task)
  | leaving {s s' : Session} {n : Nat} {pos : Int} {task : Task Nat (Shared World) Fault}
      (hreturned : Returned v i n (.ok (pos, s')) task) :
      Stands w v device i (some n) (some s) (some ⟨n, .ret (pos, s')⟩) (some task)

/-- The driver executed step by step, and its calls as one step each. -/
structure Sim (file : Nat → Fd) (m : Machine) (s : System Nat Nat (Shared World) Fault) :
    Prop where
  agree : Agree m.mem s.mem
  owner : s.owner = m.owner
  owned : Owned file m.mem.inner
  stands : ∀ i, Stands m.mem.inner s.mem.inner m.device i (file i) (m.threads i) (m.calls i)
    (s.tasks i)
  free : m.device = none → s.mem.inner.kernel = m.mem.inner.kernel
  taken : ∀ i, m.device = some i → ∃ c, m.calls i = some c ∧ Critical c.rest
  position : ∀ n, (∀ i c, m.calls i = some c → c.file ≠ n) →
    s.mem.inner.position n = m.mem.inner.position n

section Stands
variable {w v w' v' : World} {device device' : Option Nat} {i : Nat} {fd : Fd}
  {thread : Option Session} {call : Option InDriver}
  {task : Option (Task Nat (Shared World) Fault)}

theorem Returned.frame {n : Nat} {result : Except Fault (Int × Session)}
    {task : Task Nat (Shared World) Fault} (h : Returned v i n result task)
    (hposition : v'.position n = v.position n) : Returned v' i n result task := by
  cases h with
  | done hpos hfd => exact .done (hposition.trans hpos) hfd
  | faulted => exact .faulted

/-- Steps of the others. Nobody else works on the file of the thread, and on the device
only who has the lock. -/
theorem Stands.frame (h : Stands w v device i fd thread call task)
    (hpast : w'.past = w.past)
    (hposition : ∀ n, fd = some n → w'.position n = w.position n ∧ v'.position n = v.position n)
    (hdevice : device = some i →
      device' = some i ∧ w'.kernel = w.kernel ∧ v'.kernel = v.kernel) :
    Stands w' v' device' i fd thread call task := by
  cases h with
  | idle => exact .idle
  | outside => exact .outside
  | @entered fd u k c cont huses hcall next n code henters hguarded hpos =>
    obtain ⟨hfine, hcoarse⟩ := hposition n (file_of_enters henters huses).1
    exact .entered (enters_congr henters huses hfine hpast) hguarded (by rw [hfine, hcoarse, hpos])
  | inside hown hcritical hrun hreturned =>
    obtain ⟨hdevice', hkernel, hkernel'⟩ := hdevice hown
    rw [← hkernel, ← hkernel'] at hrun
    exact .inside hdevice' hcritical hrun (hreturned.frame (hposition _ rfl).2)
  | leaving hreturned => exact .leaving (hreturned.frame (hposition _ rfl).2)

/-- The file of a call is the one that the thread has open. -/
theorem Stands.file_eq (h : Stands w v device i fd thread call task) {c : InDriver}
    (hc : call = some c) : fd = some c.file := by
  cases h with
  | idle | outside => cases hc
  | @entered fd u k sc cont huses hcall next n code henters hguarded hpos =>
    cases hc
    exact (file_of_enters henters huses).1
  | inside | leaving =>
    cases hc
    rfl

end Stands

section Sim
variable {limit : Nat} {file : Nat → Fd} {m m' : Machine}
  {s s' : System Nat Nat (Shared World) Fault} {i : Nat} {fd' : Fd}

/-- What a step of thread `i` has to show. -/
theorem Sim.set (hs : Sim file m s) (hagree : Agree m'.mem s'.mem) (howner : s'.owner = m'.owner)
    (howned : Owned (Function.update file i fd') m'.mem.inner)
    (hpast : m'.mem.inner.past = m.mem.inner.past)
    (hothers : ∀ j, j ≠ i → m'.threads j = m.threads j ∧ m'.calls j = m.calls j ∧
      s'.tasks j = s.tasks j)
    (hfiles : ∀ j n, j ≠ i → file j = some n →
      m'.mem.inner.position n = m.mem.inner.position n ∧
      s'.mem.inner.position n = s.mem.inner.position n)
    (hdevice : ∀ j, j ≠ i → m.device = some j → m'.device = some j ∧
      m'.mem.inner.kernel = m.mem.inner.kernel ∧ s'.mem.inner.kernel = s.mem.inner.kernel)
    (hstands : Stands m'.mem.inner s'.mem.inner m'.device i fd' (m'.threads i) (m'.calls i)
      (s'.tasks i))
    (hfree : m'.device = none → s'.mem.inner.kernel = m'.mem.inner.kernel)
    (htaken : ∀ j, m'.device = some j → ∃ c, m'.calls j = some c ∧ Critical c.rest)
    (hposition : ∀ n, (∀ j c, m'.calls j = some c → c.file ≠ n) →
      s'.mem.inner.position n = m'.mem.inner.position n) :
    Sim (Function.update file i fd') m' s' := by
  refine ⟨hagree, howner, howned, ?_, hfree, htaken, hposition⟩
  intro j
  by_cases hj : j = i
  · subst hj
    rw [Function.update_self]
    exact hstands
  · obtain ⟨hthreads, hcalls, htasks⟩ := hothers j hj
    rw [Function.update_of_ne hj, hthreads, hcalls, htasks]
    exact (hs.stands j).frame hpast (fun n hn => hfiles j n hj hn) (hdevice j hj)

/-- A step of thread `i` that leaves memory and driver alone. -/
theorem Sim.pass (hs : Sim file m s) (hmem : m'.mem = m.mem) (hmem' : s'.mem = s.mem)
    (hdevice : m'.device = m.device) (hcalls : m'.calls = m.calls) (howner : s'.owner = m'.owner)
    (hothers : ∀ j, j ≠ i → m'.threads j = m.threads j ∧ s'.tasks j = s.tasks j)
    (hstands : Stands m.mem.inner s.mem.inner m.device i (file i) (m'.threads i) (m.calls i)
      (s'.tasks i)) : Sim file m' s' := by
  have hset : Sim (Function.update file i (file i)) m' s' := by
    refine hs.set ?_ howner ?_ ?_ ?_ ?_ ?_ ?_ ?_ ?_ ?_
    · rw [hmem, hmem']
      exact hs.agree
    · rw [Function.update_eq_self, hmem]
      exact hs.owned
    · rw [hmem]
    · intro j hj
      rw [hcalls]
      exact ⟨(hothers j hj).1, rfl, (hothers j hj).2⟩
    · intro j n _ _
      rw [hmem, hmem']
      exact ⟨rfl, rfl⟩
    · intro j _ hj
      rw [hmem, hmem', hdevice]
      exact ⟨hj, rfl, rfl⟩
    · rw [hmem, hmem', hdevice, hcalls]
      exact hstands
    · rw [hmem, hmem', hdevice]
      exact hs.free
    · rw [hdevice, hcalls]
      exact hs.taken
    · rw [hmem, hmem', hcalls]
      exact hs.position
  rwa [Function.update_eq_self] at hset

/-- What a step is above: one step of the same thread, which is not the end of a wait by a
signal, or none. -/
def Mirrors (limit : Nat) (s s' : System Nat Nat (Shared World) Fault) : Prop :=
  s' = s ∨ ∃ e, e.kind ≠ .invoke ∧ e.kind ≠ .interrupt ∧
    System.Step (dataProcessor World.sys.shared limit) s e s'

theorem Sim.create (hs : Sim file m s) (hnone : m.threads i = none) :
    s.tasks i = none ∧
      Sim file
        { m.goto i (some ⟨_, _, Thread.dataProcessor World.sys.shared i limit⟩) with
          started := Function.update m.started i true }
        (s.goto i (some ⟨i, dataProcessor World.sys.shared limit i⟩)) := by
  have hstands := hs.stands i
  rw [hnone] at hstands
  generalize hfd : file i = fd at hstands
  generalize hcall : m.calls i = call at hstands
  generalize htask : s.tasks i = task at hstands
  cases hstands with
  | idle =>
    refine ⟨rfl, hs.pass (i := i) rfl rfl rfl rfl hs.owner ?_ ?_⟩
    · intro j hj
      exact ⟨Function.update_of_ne hj _ _, Function.update_of_ne hj _ _⟩
    · rw [hfd, hcall]
      simp only [Machine.goto, System.goto, Function.update_self]
      exact Stands.outside (s := ⟨_, _, Thread.dataProcessor World.sys.shared i limit⟩)

section Outside

/-- Outside the driver a thread is at the same place on the two levels. -/
theorem Sim.outside (hs : Sim file m s) {t : Session} (hthread : m.threads i = some t)
    (hcall : m.calls i = none) : s.tasks i = some ⟨i, t.rest⟩ ∧ file i = t.fd := by
  have hstands := hs.stands i
  rw [hthread, hcall] at hstands
  generalize file i = fd at hstands
  generalize s.tasks i = task at hstands
  cases hstands with
  | outside => exact ⟨rfl, rfl⟩

/-- A step outside the driver that does not touch memory. -/
theorem Sim.goto (hs : Sim file m s) (hcall : m.calls i = none) {t : Option Session}
    {owner : Option Nat} (hmem : s'.mem = s.mem) (howner : s'.owner = owner)
    (htasks : s'.tasks = Function.update s.tasks i (t.map (fun t => ⟨i, t.rest⟩)))
    (hfile : file i = t.elim none Session.fd) :
    Sim file { m.goto i t with owner := owner } s' := by
  refine hs.pass (i := i) rfl hmem rfl rfl howner ?_ ?_
  · intro j hj
    rw [htasks]
    exact ⟨Function.update_of_ne hj _ _, Function.update_of_ne hj _ _⟩
  · rw [hcall, htasks, hfile]
    simp only [Machine.goto, Function.update_self]
    cases t with
    | none => exact .idle
    | some t => exact .outside

theorem Sim.finish (hs : Sim file m s) (hcall : m.calls i = none) (hfile : file i = none)
    (htask : s.tasks i = some ⟨i, .ret ()⟩) :
    ∃ s', Mirrors limit s s' ∧ Sim file (m.goto i none) s' := by
  refine ⟨_, Or.inr ⟨_, by simp, by simp, .finish htask⟩, ?_⟩
  exact hs.goto (t := none) hcall rfl hs.owner rfl hfile

theorem Sim.lock (hs : Sim file m s) (hcall : m.calls i = none) {t : Session}
    {q : Code (Shared World) Fault Unit} (hfile : file i = t.fd) (hfree : m.owner = none)
    (htask : s.tasks i = some ⟨i, .lock t.rest q⟩) :
    ∃ s', Mirrors limit s s' ∧ Sim file { m.goto i (some t) with owner := some i } s' := by
  refine ⟨_, Or.inr ⟨_, by simp, by simp, .acquire htask (hs.owner.trans hfree)⟩, ?_⟩
  exact hs.goto (t := some t) hcall rfl rfl rfl hfile

theorem Sim.unlock (hs : Sim file m s) (hcall : m.calls i = none) {t : Session}
    (hfile : file i = t.fd) (htask : s.tasks i = some ⟨i, .unlock t.rest⟩) :
    ∃ s', Mirrors limit s s' ∧ Sim file { m.goto i (some t) with owner := none } s' := by
  refine ⟨_, Or.inr ⟨_, by simp, by simp, .unlock htask⟩, ?_⟩
  exact hs.goto (t := some t) hcall rfl rfl rfl hfile

variable {fd : Fd} {u : Shared World → Shared World}
  {k : Shared World → Code (Shared World) Fault Unit} {c : SysCall}
  {cont : c.Returns → Code (Shared World) Fault Unit} {huses : c.Uses fd}
  {hrun : ∀ m, u m = (c.run World.sys.shared m).2 ∧
    k m = (Code.ofExcept (c.run World.sys.shared m).1).bind cont}
  {next : ∀ r, Thread World.sys.shared (fun _ => none) (c.after fd r) (cont r)}

variable (limit) in
/-- A call that does not enter the driver is one step on both levels. -/
theorem Sim.short (hs : Sim file m s)
    (hthread : m.threads i = some ⟨fd, _, .call c cont huses hrun next⟩)
    (hcall : m.calls i = none) (hnot : c.enters m.mem.inner = none) :
    ∃ r, (c.run World.sys.shared m.mem).1 = .ok r ∧ ∃ file' s', Mirrors limit s s' ∧
      Sim file' { m.goto i (some ⟨_, _, next r⟩) with
        mem := (c.run World.sys.shared m.mem).2 } s' := by
  obtain ⟨htask, hfile⟩ := hs.outside hthread hcall
  have hopen : ∀ n, fd = some n → m.mem.inner.position n ≠ none := by
    intro n hn
    exact (hs.owned.open_iff n).mpr ⟨i, hfile.trans hn⟩
  obtain ⟨r, hr, hr', hshort⟩ := short_call hs.agree hnot huses hopen
  obtain ⟨hu, hk⟩ := hrun s.mem
  rw [hr'] at hk
  rw [← hu] at hshort
  have howned : Owned (Function.update file i (c.after fd r))
      (c.run World.sys.shared m.mem).2.inner := by
    apply hs.owned.pass
    rw [show file i = fd from hfile]
    exact hshort.passes
  have hstep : System.Step (dataProcessor World.sys.shared limit) s _ _ := .act htask
  refine ⟨r, hr, Function.update file i (c.after fd r), _, Or.inr ⟨_, by simp, by simp, hstep⟩, ?_⟩
  refine hs.set (i := i) hshort.agree hs.owner howned hshort.past ?_ ?_ ?_ ?_ ?_ ?_ ?_
  · intro j hj
    exact ⟨Function.update_of_ne hj _ _, rfl, Function.update_of_ne hj _ _⟩
  · intro j n hj hn
    apply hshort.others n (hs.owned.lt j n hn)
    intro hfd
    exact hj (hs.owned.apart j i n hn (hfile.trans hfd))
  · intro j _ hj
    exact ⟨hj, hshort.kernel⟩
  · simp only [Machine.goto, System.goto, Function.update_self, hcall, hk]
    exact Stands.outside (s := ⟨_, _, next r⟩)
  · intro hfree
    rw [hshort.kernel.1, hshort.kernel.2]
    exact hs.free hfree
  · exact hs.taken
  · intro n hn
    exact hshort.same n (hs.position n hn)

/-- A thread enters the driver. Above nothing happens yet. -/
theorem Sim.enter (hs : Sim file m s)
    (hthread : m.threads i = some ⟨fd, _, .call c cont huses hrun next⟩)
    (hcall : m.calls i = none) {n : Nat} {code : KernelM (Int × c.Returns)}
    (henters : c.enters m.mem.inner = some (n, code)) (hrange : c.inRange = true) :
    Sim file (m.drive i (some ⟨n, code >>= fun (pos, r) => pure (pos, ⟨_, _, next r⟩)⟩)) s := by
  obtain ⟨htask, hfile⟩ := hs.outside hthread hcall
  obtain ⟨hfd, _⟩ := file_of_enters henters huses
  have hset : Sim (Function.update file i (file i))
      (m.drive i (some ⟨n, code >>= fun (pos, r) => pure (pos, ⟨_, _, next r⟩)⟩)) s := by
    refine hs.set (i := i) hs.agree hs.owner ?_ rfl ?_ ?_ ?_ ?_ hs.free ?_ ?_
    · rw [Function.update_eq_self]
      exact hs.owned
    · intro j hj
      exact ⟨rfl, Function.update_of_ne hj _ _, rfl⟩
    · intro j n _ _
      exact ⟨rfl, rfl⟩
    · intro j _ hj
      exact ⟨hj, rfl, rfl⟩
    · rw [hfile, htask]
      simp only [Machine.drive, Function.update_self, hthread]
      refine .entered henters ((guarded_of_enters henters hrange).result _) (hs.position n ?_)
      intro j c hc hcn
      have hj := (hs.stands j).file_eq hc
      rw [hcn] at hj
      have hji := hs.owned.apart j i n hj (hfile.trans hfd)
      rw [hji, hcall] at hc
      cases hc
    · intro j hj
      obtain ⟨c, hc, hcritical⟩ := hs.taken j hj
      have hji : j ≠ i := by
        intro he
        rw [he, hcall] at hc
        cases hc
      exact ⟨c, (Function.update_of_ne hji _ _).trans hc, hcritical⟩
    · intro n' hn'
      apply hs.position
      intro j c hc
      apply hn' j c
      have hji : j ≠ i := by
        intro he
        rw [he, hcall] at hc
        cases hc
      exact (Function.update_of_ne hji _ _).trans hc
  rwa [Function.update_eq_self] at hset

end Outside

section Inside
variable {n : Nat}

/-- A step inside the driver leaves the other threads alone, and the positions of all
files. -/
theorem Sim.drive (hs : Sim file m s) {call : InDriver} (hcall : m.calls i = some call)
    {device : Option Nat} {mem : Shared World} {rest : KernelM (Int × Session)}
    (hmem : ∃ kernel, mem = { m.mem with inner := { m.mem.inner with kernel := kernel } })
    (halone : ∀ j, j ≠ i → m.device ≠ some j)
    (hstands : Stands mem.inner s.mem.inner device i (file i) (m.threads i)
      (some ⟨call.file, rest⟩) (s.tasks i))
    (hfree : device = none → s.mem.inner.kernel = mem.inner.kernel)
    (htaken : ∀ j, device = some j → j = i ∧ Critical rest) :
    Sim file { m.drive i (some ⟨call.file, rest⟩) with mem := mem, device := device } s := by
  obtain ⟨kernel, rfl⟩ := hmem
  have hagree := hs.agree
  have hset : Sim (Function.update file i (file i))
      { m.drive i (some ⟨call.file, rest⟩) with
        mem := { m.mem with inner := { m.mem.inner with kernel := kernel } },
        device := device } s := by
    refine hs.set (i := i) ⟨hagree.flags, hagree.past, hagree.nextFd, hagree.incoming,
      hagree.outgoing, hagree.sent, hagree.complete⟩ hs.owner ?_ rfl ?_ ?_ ?_ ?_ hfree ?_ ?_
    · rw [Function.update_eq_self]
      exact ⟨hs.owned.open_iff, hs.owned.lt, hs.owned.apart⟩
    · intro j hj
      exact ⟨rfl, Function.update_of_ne hj _ _, rfl⟩
    · intro j n _ _
      exact ⟨rfl, rfl⟩
    · intro j hj hdevice
      exact absurd hdevice (halone j hj)
    · simp only [Machine.drive, Function.update_self]
      exact hstands
    · intro j hj
      obtain ⟨rfl, hcritical⟩ := htaken j hj
      exact ⟨_, Function.update_self .., hcritical⟩
    · intro n hn
      apply hs.position
      intro j c hc
      by_cases hj : j = i
      · rw [hj, hcall] at hc
        cases hc
        exact hn i ⟨call.file, rest⟩ (Function.update_self ..)
      · exact hn j c ((Function.update_of_ne hj _ _).trans hc)
  rwa [Function.update_eq_self] at hset

/-- The driver gives the lock back. -/
theorem Sim.release (hs : Sim file m s) {call : InDriver} (hcall : m.calls i = some call)
    {p : KernelM (Int × Session)} (hrest : call.rest = .unlock p) :
    Sim file { m.drive i (some ⟨call.file, p⟩) with device := none } s := by
  have hstands := hs.stands i
  rw [hcall] at hstands
  generalize hthread : m.threads i = thread at hstands
  generalize hfd : file i = fd at hstands
  generalize htask : s.tasks i = task at hstands
  cases hstands with
  | entered _ hguarded =>
    obtain ⟨_, _, hlock, _⟩ := hguarded
    cases hlock.symm.trans hrest
  | inside hdevice hcritical hrun hreturned =>
    cases hrest
    obtain ⟨a, rfl⟩ := hcritical
    obtain ⟨rfl, hkernel⟩ := Prod.mk.inj hrun
    refine hs.drive hcall ⟨m.mem.inner.kernel, rfl⟩ ?_ ?_ (fun _ => hkernel.symm) ?_
    · intro j hj hdevice'
      exact hj (Option.some.inj (hdevice'.symm.trans hdevice))
    · rw [hfd, hthread, htask]
      exact .leaving hreturned
    · intro j hj
      cases hj
  | leaving => cases hrest

/-- The driver works on the device. -/
theorem Sim.work (hs : Sim file m s) {call : InDriver} (hcall : m.calls i = some call)
    {u : Kernel → Kernel} {k : Kernel → KernelM (Int × Session)} (hrest : call.rest = .act u k) :
    Sim file { m.drive i (some ⟨call.file, k m.mem.inner.kernel⟩) with
      mem := { m.mem with inner := { m.mem.inner with kernel := u m.mem.inner.kernel } } } s := by
  have hstands := hs.stands i
  rw [hcall] at hstands
  generalize hthread : m.threads i = thread at hstands
  generalize hfd : file i = fd at hstands
  generalize htask : s.tasks i = task at hstands
  cases hstands with
  | entered _ hguarded =>
    obtain ⟨_, _, hlock, _⟩ := hguarded
    cases hlock.symm.trans hrest
  | inside hdevice hcritical hrun hreturned =>
    cases hrest
    refine hs.drive hcall ⟨u m.mem.inner.kernel, rfl⟩ ?_ ?_ ?_ ?_
    · intro j hj hdevice'
      exact hj (Option.some.inj (hdevice'.symm.trans hdevice))
    · rw [hfd, hthread, htask]
      exact .inside hdevice (hcritical _) hrun hreturned
    · intro hnone
      cases hdevice.symm.trans hnone
    · intro j hj
      exact ⟨Option.some.inj (hj.symm.trans hdevice), hcritical _⟩
  | leaving => cases hrest

/-- A call that enters the driver opens and closes nothing. -/
theorem after_of_enters {c : SysCall} {w : World} {fd : Fd} {code : KernelM (Int × c.Returns)}
    (h : c.enters w = some (n, code)) (r : c.Returns) : c.after fd r = fd := by
  cases c with
  | read | write | ioctl => rfl
  | openDevice | closeDevice | recv | send | complete => cases h

/-- The driver has taken its lock, and above the call has taken place. -/
theorem Sim.called (hs : Sim file m s) {rest p : KernelM (Int × Session)}
    (hcall : m.calls i = some ⟨n, rest⟩) (hfree : m.device = none) {mem : Shared World}
    {k : Kernel} {position : Nat → Option Int} {task : Task Nat (Shared World) Fault}
    (hdriven : Driven s.mem mem k position)
    (hposition : ∀ n', n' ≠ n → position n' = s.mem.inner.position n') (hcritical : Critical p)
    (hstands : Stands m.mem.inner mem.inner (some i) i (file i) (m.threads i) (some ⟨n, p⟩)
      (some task)) :
    Sim file { m.drive i (some ⟨n, p⟩) with device := some i }
      { s.goto i (some task) with mem := mem } := by
  have hfile := (hs.stands i).file_eq hcall
  have hset : Sim (Function.update file i (file i))
      { m.drive i (some ⟨n, p⟩) with device := some i }
      { s.goto i (some task) with mem := mem } := by
    refine hs.set (i := i) (hs.agree.trans hdriven.agree) hs.owner ?_ rfl ?_ ?_ ?_ ?_ ?_ ?_ ?_
    · rw [Function.update_eq_self]
      exact hs.owned
    · intro j hj
      exact ⟨rfl, Function.update_of_ne hj _ _, Function.update_of_ne hj _ _⟩
    · intro j n' hj hn'
      refine ⟨rfl, ?_⟩
      rw [hdriven.position]
      apply hposition
      intro he
      exact hj (hs.owned.apart j i n (he ▸ hn') hfile)
    · intro j _ hj
      cases hfree.symm.trans hj
    · simp only [Machine.drive, System.goto, Function.update_self]
      exact hstands
    · intro hnone
      cases hnone
    · intro j hj
      obtain rfl := Option.some.inj hj
      exact ⟨_, Function.update_self .., hcritical⟩
    · intro n' hn'
      have hne : n' ≠ n := fun he => hn' i ⟨n, p⟩ (Function.update_self ..) he.symm
      rw [hdriven.position, hposition n' hne]
      apply hs.position
      intro j c hc
      by_cases hj : j = i
      · rw [hj, hcall] at hc
        cases hc
        exact Ne.symm hne
      · exact hn' j c ((Function.update_of_ne hj _ _).trans hc)
  rwa [Function.update_eq_self] at hset

/-- The driver takes its lock. Above the call takes place. -/
theorem Sim.take (hs : Sim file m s) {call : InDriver} (hcall : m.calls i = some call)
    {p q : KernelM (Int × Session)} (hrest : call.rest = .lock p q) (hfree : m.device = none) :
    ∃ s', Mirrors limit s s' ∧
      Sim file { m.drive i (some ⟨call.file, p⟩) with device := some i } s' := by
  have hstands := hs.stands i
  rw [hcall] at hstands
  generalize hthread : m.threads i = thread at hstands
  generalize hfd : file i = fd at hstands
  generalize htask : s.tasks i = task at hstands
  cases hstands with
  | @entered fd u k c cont huses hrun next n code henters hguarded hposition =>
    obtain ⟨acquired, interrupted, hlock, hcritical⟩ := hguarded
    obtain ⟨rfl, rfl⟩ : acquired = p ∧ interrupted = q := by
      cases hlock.symm.trans hrest
      exact ⟨rfl, rfl⟩
    obtain ⟨rfl, _⟩ := file_of_enters henters huses
    have henters' := enters_congr henters huses hposition hs.agree.past
    have hdone := run_of_enters henters'
    rw [hs.free hfree] at hdone
    obtain ⟨hu, hk⟩ := hrun s.mem
    rw [← hu] at hdone
    have hstep : System.Step (dataProcessor World.sys.shared limit) s _ _ := .act htask
    refine ⟨_, Or.inr ⟨_, by simp, by simp, hstep⟩, ?_⟩
    -- what is left to do once the lock is there
    have hacquired : acquired.run false m.mem.inner.kernel =
        (code >>= fun (pos, r) => pure (pos, (⟨_, _, next r⟩ : Session))).run false
          m.mem.inner.kernel := by
      rw [hlock]
      rfl
    rw [Code.run_bind] at hacquired
    rcases hcode : code.run false m.mem.inner.kernel with ⟨e | ⟨pos, r⟩, kernel⟩
    · rw [hcode] at hdone hacquired
      obtain ⟨hr, hdriven⟩ := hdone
      rw [hr] at hk
      refine hs.called hcall hfree hdriven (fun _ _ => rfl) hcritical ?_
      rw [hk, hfd, hthread]
      rw [← hdriven.kernel] at hacquired
      exact .inside rfl hcritical hacquired .faulted
    · rw [hcode] at hdone hacquired
      obtain ⟨hr, hdriven⟩ := hdone
      rw [hr] at hk
      refine hs.called hcall hfree hdriven (fun n' hn' => Function.update_of_ne hn' _ _)
        hcritical ?_
      rw [hk, hfd, hthread]
      rw [← hdriven.kernel] at hacquired
      refine .inside rfl hcritical hacquired (.done (s := ⟨_, _, next r⟩) ?_ ?_)
      · rw [hdriven.position, Function.update_self]
      · exact after_of_enters henters r
  | inside hdevice hcritical =>
    cases hrest
    exact hcritical.elim
  | leaving => cases hrest

/-- A thread leaves the driver, and its file has the new position. -/
theorem Sim.leave (hs : Sim file m s) {call : InDriver} (hcall : m.calls i = some call)
    {pos : Int} {t : Session} (hrest : call.rest = .ret (pos, t)) :
    Sim file { (m.goto i (some t)).drive i none with
      mem := { m.mem with inner := m.mem.inner.moveTo call.file pos } } s := by
  have hstands := hs.stands i
  rw [hcall] at hstands
  generalize hthread : m.threads i = thread at hstands
  generalize hfd : file i = fd at hstands
  generalize htask : s.tasks i = task at hstands
  cases hstands with
  | entered _ hguarded =>
    obtain ⟨_, _, hlock, _⟩ := hguarded
    cases hlock.symm.trans hrest
  | inside hdevice hcritical =>
    cases hrest
    exact hcritical.elim
  | @leaving _ t n pos task hreturned =>
    cases hrest
    obtain ⟨hposition, hfd'⟩ := hreturned
    have hagree := hs.agree
    have hothers : ∀ n', n' ≠ n → (m.mem.inner.moveTo n pos).position n' =
        m.mem.inner.position n' := fun n' hn' => Function.update_of_ne hn' _ _
    have howned : Owned (Function.update file i (some n)) (m.mem.inner.moveTo n pos) := by
      apply hs.owned.pass
      rw [hfd]
      refine ⟨Nat.le_refl _, fun _ hn' => Or.inl hn', open_iff_of_same ?_ ?_⟩
      · intro n' hn'
        exact hothers n' (fun he => hn' (congrArg some he.symm))
      · intro n' hn'
        obtain rfl := Option.some.inj hn'
        simp [World.moveTo]
    have hset : Sim (Function.update file i (some n)) { (m.goto i (some t)).drive i none with
        mem := { m.mem with inner := m.mem.inner.moveTo n pos } } s := by
      refine hs.set (i := i) ⟨hagree.flags, hagree.past, hagree.nextFd, hagree.incoming,
        hagree.outgoing, hagree.sent, hagree.complete⟩ hs.owner howned rfl ?_ ?_ ?_ ?_ hs.free ?_ ?_
      · intro j hj
        exact ⟨Function.update_of_ne hj _ _, Function.update_of_ne hj _ _, rfl⟩
      · intro j n' hj hn'
        refine ⟨hothers n' ?_, rfl⟩
        intro he
        exact hj (hs.owned.apart j i n (he ▸ hn') hfd)
      · intro j _ hj
        exact ⟨hj, rfl, rfl⟩
      · simp only [Machine.goto, Machine.drive, Function.update_self, htask, ← hfd']
        exact .outside
      · intro j hj
        obtain ⟨c, hc, hcritical⟩ := hs.taken j hj
        have hji : j ≠ i := by
          intro he
          rw [he, hcall] at hc
          cases hc
          exact hcritical
        exact ⟨c, (Function.update_of_ne hji _ _).trans hc, hcritical⟩
      · intro n' hn'
        by_cases he : n' = n
        · rw [he, hposition]
          simp [World.moveTo]
        · rw [hs.position n' ?_]
          · exact (hothers n' he).symm
          · intro j c hc
            by_cases hj : j = i
            · rw [hj, hcall] at hc
              cases hc
              exact Ne.symm he
            · exact hn' j c ((Function.update_of_ne hj _ _).trans hc)
    rwa [← hfd, Function.update_eq_self] at hset

end Inside

theorem Sim.userStep (hs : Sim file m s) {t : Session} (hthread : m.threads i = some t)
    (hcall : m.calls i = none) (hrange : m.inRange i = true) (h : m.userStep i t = some m') :
    ∃ file' s', Mirrors limit s s' ∧ Sim file' m' s' := by
  obtain ⟨htask, hfile⟩ := hs.outside hthread hcall
  obtain ⟨fd, rest, thread⟩ := t
  cases thread with
  | ret =>
    cases h
    exact ⟨file, hs.finish hcall hfile htask⟩
  | fault => cases h
  | lock acquired interrupted =>
    simp only [Machine.userStep] at h
    split at h
    · cases h
      exact ⟨file, hs.lock (t := ⟨_, _, acquired⟩) hcall hfile ‹_› htask⟩
    · cases h
  | unlock next =>
    cases h
    exact ⟨file, hs.unlock (t := ⟨_, _, next⟩) hcall hfile htask⟩
  | call c cont huses hrun next =>
    simp only [Machine.userStep] at h
    split at h
    · cases h
      simp only [Machine.inRange, hthread] at hrange
      exact ⟨file, s, Or.inl rfl, hs.enter hthread hcall ‹_› hrange⟩
    · obtain ⟨r, hr, hsim⟩ := hs.short limit hthread hcall ‹_›
      rw [Code.run_eq_of_fst hr] at h
      cases h
      exact hsim

theorem Sim.driverStep (hs : Sim file m s) {call : InDriver} (hcall : m.calls i = some call)
    (h : m.driverStep i call = some m') :
    ∃ file' s', Mirrors limit s s' ∧ Sim file' m' s' := by
  unfold Machine.driverStep at h
  split at h
  · cases h
    exact ⟨file, s, Or.inl rfl, hs.leave hcall ‹_›⟩
  · cases h
  · split at h
    · cases h
      exact ⟨file, hs.take hcall ‹_› ‹_›⟩
    · cases h
  · cases h
    exact ⟨file, s, Or.inl rfl, hs.release hcall ‹_›⟩
  · cases h
    exact ⟨file, s, Or.inl rfl, hs.work hcall ‹_›⟩

theorem started_of_userStep {t : Session} (h : m.userStep i t = some m') :
    m'.started = m.started := by
  obtain ⟨fd, rest, thread⟩ := t
  cases thread with
  | ret | unlock =>
    cases h
    rfl
  | fault => cases h
  | lock =>
    simp only [Machine.userStep] at h
    split at h
    · cases h
      rfl
    · cases h
  | call =>
    simp only [Machine.userStep] at h
    split at h
    · cases h
      rfl
    · split at h
      · cases h
        rfl
      · cases h
        rfl

theorem started_of_driverStep {call : InDriver} (h : m.driverStep i call = some m') :
    m'.started = m.started := by
  unfold Machine.driverStep at h
  split at h
  · cases h
    rfl
  · cases h
  · split at h
    · cases h
      rfl
    · cases h
  · cases h
    rfl
  · cases h
    rfl

/-- Each step of a thread is one step above, or none. -/
theorem Sim.go (hs : Sim file m s) (hrange : m.allows (.go i) = true)
    (h : m.next limit (.go i) = some m') :
    m'.started = m.started ∧ ∃ file' s', Mirrors limit s s' ∧ Sim file' m' s' := by
  simp only [Machine.next] at h
  split at h
  · cases h
  · split at h
    · exact ⟨started_of_userStep h, hs.userStep ‹_› ‹_› hrange h⟩
    · exact ⟨started_of_driverStep h, hs.driverStep ‹_› h⟩

end Sim

theorem sim_start (k₀ : Kernel) (past : Nat → Nat)
    (incoming : Nat → List (Result (List UInt8))) (outgoing : Nat → List (Result Nat))
    (flags : Nat → Nat) : Sim (fun _ => none)
      (.start ⟨World.start k₀ past incoming outgoing, flags, []⟩)
      (.start ⟨World.start k₀ past incoming outgoing, flags, []⟩) where
  agree := .refl _
  owner := rfl
  owned := (held_start k₀ past incoming outgoing flags).owned
  stands _ := .idle
  free _ := rfl
  taken i hi := by cases hi
  position _ _ := rfl

/-- What holds above at the start, and is kept there by steps of threads and by new ones,
holds above all the time. -/
theorem sim_rule {P : (Nat → Bool) → System Nat Nat (Shared World) Fault → Prop} {limit : Nat}
    {k₀ : Kernel} {past : Nat → Nat} {incoming : Nat → List (Result (List UInt8))}
    {outgoing : Nat → List (Result Nat)} {flags : Nat → Nat} {m : Machine}
    (hstart : P (fun _ => false) (.start ⟨World.start k₀ past incoming outgoing, flags, []⟩))
    (hworker : ∀ {started s e s'}, P started s → e.kind ≠ .invoke → e.kind ≠ .interrupt →
      System.Step (dataProcessor World.sys.shared limit) s e s' → P started s')
    (hlaunch : ∀ {started s i}, P started s → started i = false → s.tasks i = none →
      P (Function.update started i true)
        (s.goto i (some ⟨i, dataProcessor World.sys.shared limit i⟩)))
    (hrun : Machine.Runs limit (.start ⟨World.start k₀ past incoming outgoing, flags, []⟩) m) :
    ∃ file s, Sim file m s ∧ P m.started s := by
  induction hrun with
  | refl => exact ⟨_, _, sim_start k₀ past incoming outgoing flags, hstart⟩
  | @step m m' choice _ hrange h ih =>
    obtain ⟨file, s, hs, hP⟩ := ih
    cases choice with
    | create i =>
      simp only [Machine.next] at h
      split at h
      · cases h
        obtain ⟨hnone, hs'⟩ := hs.create ‹_›
        exact ⟨file, _, hs', hlaunch hP ‹_› hnone⟩
      · cases h
    | go i =>
      obtain ⟨hstarted, file', s', hmirrors, hs'⟩ := hs.go hrange h
      refine ⟨file', s', hs', ?_⟩
      rw [hstarted]
      rcases hmirrors with rfl | ⟨e, hinvoke, hinterrupt, hstep⟩
      · exact hP
      · exact hworker hP hinvoke hinterrupt hstep

theorem Sim.none_iff {file : Nat → Fd} {m : Machine} {s : System Nat Nat (Shared World) Fault}
    (hs : Sim file m s) (i : Nat) : m.threads i = none ↔ s.tasks i = none := by
  have hstands := hs.stands i
  generalize file i = fd at hstands
  generalize m.threads i = thread at hstands
  generalize m.calls i = call at hstands
  generalize s.tasks i = task at hstands
  cases hstands <;> simp

/-- That each system call is one step is no loss. Let the threads and the code of the
driver take their steps in any order, as its lock allows. There is a run of the threads in
which every call on the device is one step, and which gives the clients the same bytes.
Every thread outside the driver is at the same place there. The device is the same whenever
the lock of the driver is free, and the files are whenever nobody is inside. No client may
send a seek command for a packet beyond the tenth: the driver then gives back a lock that
it has not taken. -/
theorem driver_steps_refine_calls {limit : Nat} {k₀ : Kernel} {past : Nat → Nat}
    {incoming : Nat → List (Result (List UInt8))} {outgoing : Nat → List (Result Nat)}
    {flags : Nat → Nat} {m : Machine}
    (hrun : Machine.Runs limit (.start ⟨World.start k₀ past incoming outgoing, flags, []⟩) m) :
    ∃ s, System.Reaches (dataProcessor World.sys.shared limit) (fun e => e.kind ≠ .interrupt)
        (.start ⟨World.start k₀ past incoming outgoing, flags, []⟩) s ∧
      s.mem.inner.sent = m.mem.inner.sent ∧ s.mem.inner.incoming = m.mem.inner.incoming ∧
      s.mem.inner.outgoing = m.mem.inner.outgoing ∧
      s.mem.threadComplete = m.mem.threadComplete ∧ s.owner = m.owner ∧
      (m.device = none → s.mem.inner.kernel = m.mem.inner.kernel) ∧
      (∀ i, m.calls i = none → s.tasks i = (m.threads i).map (fun t => ⟨i, t.rest⟩)) ∧
      ((∀ i, m.calls i = none) → s.mem.inner.position = m.mem.inner.position) := by
  obtain ⟨file, s, hs, hreaches⟩ := sim_rule (P := fun _ s =>
    System.Reaches (dataProcessor World.sys.shared limit) (fun e => e.kind ≠ .interrupt)
      (.start ⟨World.start k₀ past incoming outgoing, flags, []⟩) s) .refl
    (fun hs _ hinterrupt h => hs.step hinterrupt h)
    (fun hs _ hnone => hs.step (by simp) (.invoke _ hnone)) hrun
  refine ⟨s, hreaches, hs.agree.sent, hs.agree.incoming, hs.agree.outgoing, hs.agree.flags,
    hs.owner, hs.free, ?_, ?_⟩
  · intro i hcall
    have hstands := hs.stands i
    rw [hcall] at hstands
    generalize file i = fd at hstands
    generalize m.threads i = thread at hstands
    generalize s.tasks i = task at hstands
    cases hstands with
    | idle => rfl
    | outside => rfl
  · intro hidle
    funext n
    apply hs.position
    intro i c hc
    rw [hidle i] at hc
    cases hc

/-- Thread `i` takes `n` steps. -/
def steps (i n : Nat) : List Machine.Choice := List.replicate n (.go i)

/-- The second session enters the driver while the first reads, and stores its packet
before that read returns. -/
theorem packet_stored_during_read :
    ∃ (m : Machine) (s : System Nat Nat (Shared World) Fault), Machine.Runs 4
        (.start ⟨World.online (booted plenty) (fun _ => 0) letters, fun _ => 0, []⟩) m ∧
      System.Reaches (dataProcessor World.sys.shared 4) (fun e => e.kind ≠ .interrupt)
        (.start ⟨World.online (booted plenty) (fun _ => 0) letters, fun _ => 0, []⟩) s ∧
      s.mem.inner.sent 0 = [97, 10, 98, 10] ∧ s.mem.inner.sent 1 = [] ∧
      s.mem.inner.kernel = m.mem.inner.kernel := by
  have hplay : (Machine.exec 4
        (.start ⟨World.online (booted plenty) (fun _ => 0) letters, fun _ => 0, []⟩)
        ([.create 0, .create 1] ++ steps 0 34 ++ steps 1 4 ++ steps 0 4 ++ steps 1 22 ++
          steps 0 19)).map
      (fun m : Machine => (m.mem.inner.sent 0, m.mem.inner.sent 1, m.device)) =
      some ([97, 10, 98, 10], [], none) := by decide +kernel
  obtain ⟨m, hm, hobs⟩ := Option.map_eq_some_iff.mp hplay
  obtain ⟨hsent, hsent', hdevice⟩ : m.mem.inner.sent 0 = [97, 10, 98, 10] ∧
      m.mem.inner.sent 1 = [] ∧ m.device = none := by simpa using hobs
  have hrun := Machine.Runs.refl.exec hm
  obtain ⟨s, hreaches, heq, _, _, _, _, hkernel, _⟩ := driver_steps_refine_calls hrun
  exact ⟨m, s, hrun, hreaches, heq ▸ hsent, heq ▸ hsent', hkernel hdevice⟩

end Aesd.Proofs
