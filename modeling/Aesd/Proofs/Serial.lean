import Aesd.Base.Progress
import Aesd.Driver.OpenFile
import Aesd.Proofs.Exclusion
import Aesd.Proofs.Reachable

namespace Aesd.Proofs
open Base Driver Code

section Sections
variable {intr : Bool}

theorem sectioned_aesdRead (buf : UserDest) (fPos : Int) :
    Sectioned intr (fun ph _ => ph = .after) .before
      ((aesdRead buf fPos).onShared : Code (Kernel × OpenFile) Fault ReadResult) := by
  unfold aesdRead
  rw [onShared_bind]
  refine sectioned_lock.bind (fun ph interrupted hph => ?_)
  cases interrupted with
  | true => exact hph
  | false =>
    subst hph
    simp only [Bool.false_eq_true, ↓reduceIte, onShared_bind]
    exact (inner_aesdReadLocked buf fPos).sectioned
      (fun _ => sectioned_release.bind (fun _ _ h => h))

theorem sectioned_aesdWrite (buf : UserSource) (fPos : Int) :
    Sectioned intr (fun ph _ => ph = .after) .before
      ((aesdWrite buf fPos).onShared : Code (Kernel × OpenFile) Fault (Int × Int)) := by
  unfold aesdWrite
  rw [onShared_bind]
  refine sectioned_lock.bind (fun ph interrupted hph => ?_)
  cases interrupted with
  | true => exact hph
  | false =>
    subst hph
    simp only [Bool.false_eq_true, ↓reduceIte, onShared_bind]
    exact (inner_kmalloc _).sectioned (fun _ => (inner_aesdWriteLocked _ _ _).sectioned
      (fun _ => (inner_kfree _).sectioned (fun _ => sectioned_release.bind (fun _ _ h => h))))

/-- A seek that is neither refused by the range check nor interrupted. -/
theorem sectioned_seekto (past : Nat → Nat) {writeCmd : Nat} (writeCmdOffset : Nat) (fPos : Int)
    (hc : writeCmd < 10) :
    Sectioned false (fun ph _ => ph = .after) .before
      ((aesdIoctl past AESDCHAR_IOCSEEKTO (some (writeCmd, writeCmdOffset)) fPos).onShared :
        Code (Kernel × OpenFile) Fault SeekResult) := by
  have hn : ¬ writeCmd ≥ 10 := Nat.not_le.mpr hc
  simp only [aesdIoctl, ↓reduceIte, aesdAdjustFileOffset, seekEntry, hn, onShared_bind]
  refine Sectioned.bind (Q := fun ph _ => ph = .inside) ?_ (fun ph _ hph => ?_)
  · refine sectioned_lock_uninterrupted.bind (fun ph interrupted hlock => ?_)
    obtain ⟨rfl, rfl⟩ := hlock
    simp only [Bool.false_eq_true, ↓reduceIte, onShared_bind]
    exact inner_getDev.sectioned (fun _ => rfl)
  · subst hph
    exact sectioned_release.bind (fun _ _ h => h)

end Sections

/-- The calls whose wait for the lock may be interrupted without harm. -/
def FileCall.interruptible : FileCall → Bool
  | .seekto _ _ _ => false
  | _ => true

/-- A call that the range check of the seek does not refuse. -/
def FileCall.InRange : FileCall → Prop
  | .seekto _ writeCmd _ => writeCmd < 10
  | _ => True

instance (c : FileCall) : Decidable (FileCall.InRange c) :=
  match c with
  | .read _ | .write _ => inferInstanceAs (Decidable True)
  | .seekto _ writeCmd _ => inferInstanceAs (Decidable (writeCmd < 10))

theorem FileCall.sectioned {c : FileCall} (hc : FileCall.InRange c) :
    Sectioned (FileCall.interruptible c) (fun ph _ => ph = .after) .before c.code := by
  cases c with
  | read buf =>
    refine (sectioned_getOwn .before).bind (fun ph file hph => ?_)
    subst hph
    refine (sectioned_aesdRead buf file.fPos).bind (fun ph res hph => ?_)
    subst hph
    exact sectioned_setOwn .after _
  | write buf =>
    refine (sectioned_getOwn .before).bind (fun ph file hph => ?_)
    subst hph
    refine (sectioned_aesdWrite buf file.fPos).bind (fun ph ret hph => ?_)
    subst hph
    exact sectioned_setOwn .after _
  | seekto past writeCmd writeCmdOffset =>
    refine (sectioned_getOwn .before).bind (fun ph file hph => ?_)
    subst hph
    refine (sectioned_seekto past writeCmdOffset file.fPos hc).bind (fun ph res hph => ?_)
    subst hph
    exact sectioned_setOwn .after _

section Alone
variable {signal : Bool} {k k' : Kernel} {file : OpenFile}

/-- What a call does with nobody else around. -/
theorem run_read_call {buf : UserDest} {res : ReadResult}
    (h : (aesdRead buf file.fPos).run signal k = (.ok res, k')) :
    (FileCall.read buf).code.run signal (k, file) = (.ok (), (k', file.answered
      (if 0 ≤ res.retval then res.fPos else file.fPos) ⟨res.retval, res.delivered⟩)) := by
  simp only [FileCall.code, run_bind, run_getOwn, run_onShared, h, run_setOwn]

theorem run_write_call {buf : UserSource} {ret : Int × Int}
    (h : (aesdWrite buf file.fPos).run signal k = (.ok ret, k')) :
    (FileCall.write buf).code.run signal (k, file) = (.ok (), (k', file.answered
      (if 0 ≤ ret.1 then ret.2 else file.fPos) ⟨ret.1, []⟩)) := by
  simp only [FileCall.code, run_bind, run_getOwn, run_onShared, h, run_setOwn]

theorem run_write_call_error {buf : UserSource} {e : Fault}
    (h : (aesdWrite buf file.fPos).run signal k = (.error e, k')) :
    (FileCall.write buf).code.run signal (k, file) = (.error e, (k', file)) := by
  simp only [FileCall.code, run_bind, run_getOwn, run_onShared, h]

theorem run_seekto_call (signal : Bool) (k : Kernel) (file : OpenFile) (past : Nat → Nat)
    (writeCmd writeCmdOffset : Nat) :
    ∃ res, (aesdIoctl past AESDCHAR_IOCSEEKTO (some (writeCmd, writeCmdOffset)) file.fPos).run
        signal k = (.ok res, k) ∧
      (FileCall.seekto past writeCmd writeCmdOffset).code.run signal (k, file) =
        (.ok (), (k, file.answered res.fPos ⟨res.retval, []⟩)) := by
  obtain ⟨res, hres⟩ := aesd_ioctl_keeps signal k past AESDCHAR_IOCSEEKTO
    (some (writeCmd, writeCmdOffset)) file.fPos
  refine ⟨res, hres, ?_⟩
  simp only [FileCall.code, run_bind, run_getOwn, run_onShared, hres, run_setOwn]

end Alone

-- How many steps the parts of a call take at most.
section Bounds
variable (p q : Ptr) (n : Nat)

theorem within_onHeap (f : Heap → Except Fault (α × Heap)) : Code.Within 1 (onHeap f) :=
  within_exec _

theorem within_kmalloc : Code.Within 1 (kmalloc n) := within_onHeap _

theorem within_krealloc : Code.Within 1 (krealloc p n) := within_exec _

theorem within_kfree : Code.Within 1 (kfree p) := within_exec _

theorem within_memset (c : UInt8) : Code.Within 1 (memset p c n) := within_exec _

theorem within_strlen : Code.Within 1 (strlen p) := within_exec _

theorem within_strchr (c : UInt8) : Code.Within 1 (strchr p c) := within_exec _

theorem within_strcat : Code.Within 1 (strcat p q) := within_exec _

theorem within_strncpy : Code.Within 1 (strncpy p q n) := within_exec _

theorem within_findEntry : Code.Within 1 (findEntry n) := within_exec _

theorem within_addEntry : Code.Within 1 addEntry := within_exec _

theorem within_getDev : Code.Within 1 getDev := within_get.bind (fun _ => within_pure _)

theorem within_setDev (f : AesdDev → AesdDev) : Code.Within 1 (setDev f) := within_modify _

theorem within_copyFromUser (buf : UserSource) : Code.Within 1 (copyFromUser p buf) := by
  unfold copyFromUser
  split
  · exact (within_pure _).mono (by decide)
  · exact (within_onHeap (fun h => (h.store p buf.data).map (fun h => ((), h)))).bind
      (fun _ => within_pure _)

theorem within_copyToUser (buf : UserDest) : Code.Within 1 (copyToUser buf p n) := by
  refine Within.bind (n := 1) (m := 0) (within_onHeap _) (fun bytes => ?_)
  split <;> exact within_pure _

theorem within_aesdReadCopy (buf : UserDest) : Code.Within 3 (aesdReadCopy buf p q n) := by
  unfold aesdReadCopy
  split
  · exact (within_pure _).mono (by decide)
  · refine (within_memset _ _ _).bind (m := 2) (fun _ => (within_strncpy _ _ _).bind (m := 1)
      (fun _ => (within_copyToUser _ _ _).bind (m := 0) (fun (_, failed) => ?_)))
    dsimp only
    split <;> exact within_pure _

theorem within_aesdReadEntry (buf : UserDest) (fPos : Int) (entry : BufferEntry) :
    Code.Within 5 (aesdReadEntry buf fPos entry n) :=
  (within_kmalloc _).bind (m := 4) (fun _ => (within_aesdReadCopy _ _ _ _).bind (m := 1)
    (fun (_, _) => (within_kfree _).bind (m := 0) (fun _ => within_pure _)))

theorem within_aesdReadLocked (buf : UserDest) (fPos : Int) :
    Code.Within 7 (aesdReadLocked buf fPos) := by
  refine (within_findEntry _).bind (m := 6) (fun found => ?_)
  split
  · exact (within_pure _).mono (by decide)
  · exact within_getDev.bind (m := 5) (fun _ => within_aesdReadEntry _ _ _ _)

theorem within_aesdRead (buf : UserDest) (fPos : Int) : Code.Within 9 (aesdRead buf fPos) := by
  refine within_lock.bind (m := 8) (fun interrupted => ?_)
  split
  · exact (within_pure _).mono (by decide)
  · exact (within_aesdReadLocked buf fPos).bind (m := 1) (fun _ =>
      within_release.bind (m := 0) (fun _ => within_pure _))

theorem within_allocPacket : Code.Within 5 (allocPacket p) := by
  refine within_getDev.bind (m := 4) (fun dev => (within_strlen _).bind (m := 3) (fun n => ?_))
  dsimp only
  split
  · exact (within_kmalloc _).bind (m := 2) (fun _ => (within_setDev _).bind (m := 1) (fun _ =>
      (within_memset _ _ _).bind (m := 0) (fun _ => within_pure _)))
  · exact ((within_krealloc _ _).bind (m := 1) (fun _ => (within_setDev _).bind (m := 0) (fun _ =>
      within_pure _))).mono (by decide)

theorem within_growPacket : Code.Within 8 (growPacket p) := by
  refine (within_allocPacket _).bind (m := 3) (fun n => within_getDev.bind (m := 2) (fun dev => ?_))
  dsimp only
  split
  · exact (within_pure _).mono (by decide)
  · exact (within_strcat _ _).bind (m := 1) (fun _ => (within_setDev _).bind (m := 0) (fun _ =>
      within_pure _))

theorem within_closePacket (fPos : Int) : Code.Within 4 (closePacket fPos) := by
  refine within_addEntry.bind (m := 3) (fun back => within_getDev.bind (m := 2) (fun dev => ?_))
  dsimp only
  split
  · exact (within_kfree _).bind (m := 1) (fun _ => (within_setDev _).bind (m := 0) (fun _ =>
      within_pure _))
  · exact ((within_setDev _).bind (m := 0) (fun _ => within_pure _)).mono (by decide)

theorem within_appendPart (fPos : Int) : Code.Within 15 (appendPart n p fPos) := by
  have htail : Code.Within 13 (do
      if !(← growPacket p) then return (-ENOMEM, fPos)
      if (← getDev).endOfPacket = 1 then
        return ((n : Int), ← closePacket fPos)
      return ((n : Int), fPos) : KernelM (Int × Int)) := by
    refine (within_growPacket _).bind (m := 5) (fun grown => ?_)
    split
    · exact (within_pure _).mono (by decide)
    · refine within_getDev.bind (m := 4) (fun dev => ?_)
      split
      · exact (within_closePacket _).bind (m := 0) (fun _ => within_pure _)
      · exact (within_pure _).mono (by decide)
  refine (within_strchr _ _).bind (m := 14) (fun found => ?_)
  split
  · exact (within_setDev _).bind (m := 13) (fun _ => htail)
  · exact htail.mono (by decide)

theorem within_aesdWriteLocked (buf : UserSource) (fPos : Int) :
    Code.Within 17 (aesdWriteLocked buf p fPos) := by
  unfold aesdWriteLocked
  split
  · exact (within_pure _).mono (by decide)
  · refine (within_memset _ _ _).bind (m := 16) (fun _ => (within_copyFromUser _ _).bind (m := 15)
      (fun failed => ?_))
    split
    · exact (within_pure _).mono (by decide)
    · exact within_appendPart _ _ _

theorem within_aesdWrite (buf : UserSource) (fPos : Int) :
    Code.Within 21 (aesdWrite buf fPos) := by
  refine within_lock.bind (m := 20) (fun interrupted => ?_)
  split
  · exact (within_pure _).mono (by decide)
  · exact (within_kmalloc _).bind (m := 19) (fun _ => (within_aesdWriteLocked _ _ _).bind (m := 2)
      (fun _ => (within_kfree _).bind (m := 1) (fun _ =>
        within_release.bind (m := 0) (fun _ => within_pure _))))

theorem within_aesdIoctl (past : Nat → Nat) (cmd : Nat) (arg : Option (Nat × Nat)) (fPos : Int) :
    Code.Within 3 (aesdIoctl past cmd arg fPos) := by
  have hentry : ∀ writeCmd writeCmdOffset,
      Code.Within 2 (seekEntry past writeCmd writeCmdOffset fPos) := by
    intro writeCmd writeCmdOffset
    unfold seekEntry
    split
    · exact (within_pure _).mono (by decide)
    · refine within_lock.bind (m := 1) (fun interrupted => ?_)
      split
      · exact (within_pure _).mono (by decide)
      · exact within_getDev.bind (m := 0) (fun _ => within_pure _)
  unfold aesdIoctl
  split
  · split
    · exact (within_pure _).mono (by decide)
    · exact (hentry _ _).bind (m := 1) (fun _ =>
        within_release.bind (m := 0) (fun _ => within_pure _))
  · exact (within_pure _).mono (by decide)

theorem FileCall.within (c : FileCall) : Code.Within 23 c.code := by
  cases c with
  | read buf =>
    exact (within_getOwn.bind (m := 10) (fun file => (within_aesdRead _ _).onShared.bind (m := 1)
      (fun _ => within_setOwn _))).mono (by decide)
  | write buf =>
    exact within_getOwn.bind (m := 22) (fun file => (within_aesdWrite _ _).onShared.bind (m := 1)
      (fun _ => within_setOwn _))
  | seekto past writeCmd writeCmdOffset =>
    exact (within_getOwn.bind (m := 4) (fun file => (within_aesdIoctl _ _ _ _).onShared.bind (m := 1)
      (fun _ => within_setOwn _))).mono (by decide)

end Bounds

/-- What the critical sections leave behind. -/
def Intact (k : Kernel) : Prop := ∃ q o, Healthy k q o

/-- A call with nobody else around. Only a write can come to a fault. -/
theorem Healthy.call {k : Kernel} {q : List Packet} {o : Pending} (hk : Healthy k q o)
    (c : FileCall) (file : OpenFile) :
    (∃ e m, c.code.run false (k, file) = (.error e, m) ∧ (e = .nullDeref ∨ e = .outOfBounds) ∧
      ∃ buf, c = .write buf ∧ (buf.data = [] ∨ 0 < m.1.heap.denied)) ∨
    ∃ m, c.code.run false (k, file) = (.ok (), m) ∧ Intact m.1 := by
  cases c with
  | read buf =>
    obtain ⟨res, k', d, hrun, _, hs', hleaves, _⟩ := aesd_read_gives buf file.fPos hk.toSound
    exact Or.inr ⟨_, run_read_call hrun, q, o, hleaves.healthy hk hs'⟩
  | write buf =>
    rcases hw : (aesdWrite buf file.fPos).run false k with ⟨r, k'⟩
    cases r with
    | ok ret =>
      obtain ⟨q', o', _, _, hk', _⟩ := hk.write_returned hw
      exact Or.inr ⟨_, run_write_call hw, q', o', hk'⟩
    | error e =>
      obtain ⟨he, hwhy⟩ := hk.write_fault hw
      exact Or.inl ⟨e, _, run_write_call_error hw, he, buf, rfl, hwhy⟩
  | seekto past writeCmd writeCmdOffset =>
    obtain ⟨res, _, hrun⟩ := run_seekto_call false k file past writeCmd writeCmdOffset
    exact Or.inr ⟨_, hrun, q, o, hk⟩

theorem Booted.reachable {grant : Nat → Bool} {k : Kernel} (hb : Booted grant k) : Reachable k :=
  ⟨grant, k, [], [], hb, rfl⟩

section Runs
variable {ι : Type} [DecidableEq ι] {k : Kernel} {files : ι → OpenFile}
  {es : List (Event ι (ι × FileCall))} {s : System ι (ι × FileCall) (Kernel × (ι → OpenFile)) Fault}

/-- Tasks use files of their own. Seeks are those that keep the lock in order: to a
command in range, and not interrupted while they wait. -/
def OnOwnFile (e : Event ι (ι × FileCall)) : Prop :=
  (e.kind = .invoke → e.call.1 = e.task ∧ FileCall.InRange e.call.2) ∧
    (e.kind = .interrupt → FileCall.interruptible e.call.2 = true)

instance : DecidablePred (@OnOwnFile ι) := fun _ => inferInstanceAs (Decidable (_ ∧ _))

/-- What tasks do from a state of the device on. -/
abbrev Calls (k : Kernel) (files : ι → OpenFile) (es : List (Event ι (ι × FileCall)))
    (s : System ι (ι × FileCall) (Kernel × (ι → OpenFile)) Fault) : Prop :=
  System.Log (System.ofTask FileCall.code) OnOwnFile (.start (k, files)) es s

theorem calls_of_log {schedule : List (ι × System.Choice (ι × FileCall))}
    (h : System.log (System.ofTask FileCall.code) (fun e => decide (OnOwnFile e)) []
      (.start (k, files)) schedule = some (es, s)) : Calls k files es s :=
  System.Log.start.log (fun _ he => of_decide_eq_true he) h

/-- The device and the files after the turns, one call after the other. -/
abbrev inTurn (k : Kernel) (files : ι → OpenFile) (es : List (Event ι (ι × FileCall))) :
    Kernel × (ι → OpenFile) :=
  System.oneByOne FileCall.code (System.turns es) (k, files)

theorem Calls.serial (hk : Intact k) (hlog : Calls k files es s) :
    System.Serial FileCall.code FileCall.interruptible Intact
      (System.Return FileCall.code (System.turns es) (k, files)) es s (inTurn k files es) := by
  refine System.Log.serial hlog hk ?_ (fun e he => he.2) ?_
  · intro e he hinvoke
    obtain ⟨hcall, hrange⟩ := he.1 hinvoke
    exact ⟨hcall, FileCall.sectioned hrange⟩
  · intro c x file a m hx hrun
    obtain ⟨q, o, hx⟩ := hx
    rcases hx.call c file with ⟨e, _, herror, _⟩ | ⟨m', hok, hm⟩
    · cases herror.symm.trans hrun
    · cases hok.symm.trans hrun
      exact hm

/-- System calls of any number of tasks come to the same as the calls made one after
the other, in the order in which they got the lock or gave up waiting for it, and so
made they all return. A task between two calls has seen its own calls in the order in
which it made them. -/
theorem device_calls_serialize (hk : Reachable k) (hlog : Calls k files es s) :
    (s.owner = none → s.mem.1 = (inTurn k files es).1 ∧
        System.Return FileCall.code (System.turns es) (k, files)) ∧
      ∀ i, s.tasks i = none → s.mem.2 i = (inTurn k files es).2 i ∧
        System.turnsOf i es = System.returnsOf i es := by
  have hserial := Calls.serial hk.healthy hlog
  refine ⟨fun hfree => ?_, fun _ hidle => hserial.own_eq hidle⟩
  obtain ⟨hmem, _, hreturn⟩ := hserial.free hfree
  exact ⟨hmem, hreturn⟩

/-- Two writers and a reader at once. The second writer gets the lock first, and the
reader is interrupted while it waits. -/
def crowd : List (Fin 3 × System.Choice (Fin 3 × FileCall)) :=
  [(0, .call (0, .write ⟨[104, 105, 10], false⟩)), (1, .call (1, .write ⟨[111, 107, 10], false⟩)),
    (2, .call (2, .read ⟨9, none⟩)), (0, .go), (1, .go), (2, .go), (1, .go), (2, .interrupt)] ++
  List.replicate 21 (1, .go) ++ List.replicate 22 (0, .go) ++ List.replicate 2 (2, .go)

def crowdLog : Option (List (Event (Fin 3) (Fin 3 × FileCall)) ×
    System (Fin 3) (Fin 3 × FileCall) (Kernel × (Fin 3 → OpenFile)) Fault) :=
  System.log (System.ofTask FileCall.code) (fun e => decide (OnOwnFile e)) []
    (.start (booted plenty, fun _ => .fresh)) crowd

theorem crowd_calls : ∃ es s, crowdLog = some (es, s) ∧
    Calls (booted plenty) (fun _ : Fin 3 => .fresh) es s ∧
    s.owner = none ∧ s.tasks 0 = none ∧ (System.turns es).map Turn.task = [1, 2, 0] := by
  have hend : crowdLog.map (fun (es, s) =>
      (s.owner, (s.tasks 0).isNone, (System.turns es).map Turn.task)) =
        some (none, true, [1, 2, 0]) := by decide +kernel
  obtain ⟨⟨es, s⟩, hrun, hfacts⟩ := Option.map_eq_some_iff.mp hend
  obtain ⟨howner, hidle, hturns⟩ : s.owner = none ∧ (s.tasks 0).isNone = true ∧
      (System.turns es).map Turn.task = [1, 2, 0] := by simpa using hfacts
  exact ⟨es, s, hrun, calls_of_log hrun, howner, Option.isNone_iff_eq_none.mp hidle, hturns⟩

theorem device_calls_serialize_in_crowd :
    ∃ es s, Calls (booted plenty) (fun _ : Fin 3 => .fresh) es s ∧
      (System.turns es).map Turn.task = [1, 2, 0] ∧
      s.mem.1 = (inTurn (booted plenty) (fun _ : Fin 3 => .fresh) es).1 ∧
      s.mem.2 0 = (inTurn (booted plenty) (fun _ : Fin 3 => .fresh) es).2 0 := by
  obtain ⟨es, s, _, hlog, hfree, hidle, hturns⟩ := crowd_calls
  have hserial := device_calls_serialize booted_plenty.reachable hlog
  exact ⟨es, s, hlog, hturns, (hserial.1 hfree).1, (hserial.2 0 hidle).1⟩

/-- The fault that a task has come to. -/
def faultOf : Option (Task (Fin 3 × FileCall) (Kernel × (Fin 3 → OpenFile)) Fault) → Option Fault
  | some ⟨_, .fault e⟩ => some e
  | _ => none

theorem faultOf_eq_some {t : Option (Task (Fin 3 × FileCall) (Kernel × (Fin 3 → OpenFile)) Fault)}
    {e : Fault} (h : faultOf t = some e) : ∃ c, t = some ⟨c, .fault e⟩ := by
  unfold faultOf at h
  split at h
  · obtain rfl := Option.some.inj h
    exact ⟨_, rfl⟩
  · cases h

/-- The crowd again, and after it a write for whose packet there is no memory. -/
def starvedLog : Option (List (Event (Fin 3) (Fin 3 × FileCall)) ×
    System (Fin 3) (Fin 3 × FileCall) (Kernel × (Fin 3 → OpenFile)) Fault) :=
  System.log (System.ofTask FileCall.code) (fun e => decide (OnOwnFile e)) []
    (.start (booted (allBut 10), fun _ => .fresh))
    (crowd ++ (0, .call (0, .write ⟨[98], false⟩)) :: List.replicate 11 (0, .go))

/-- The second writer has the lock, the first one waits for it, and the reader has been
interrupted. -/
def busyLog : Option (List (Event (Fin 3) (Fin 3 × FileCall)) ×
    System (Fin 3) (Fin 3 × FileCall) (Kernel × (Fin 3 → OpenFile)) Fault) :=
  System.log (System.ofTask FileCall.code) (fun e => decide (OnOwnFile e)) []
    (.start (booted plenty, fun _ => .fresh)) (crowd.take 20)

end Runs

end Aesd.Proofs
