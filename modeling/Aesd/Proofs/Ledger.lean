import Aesd.Proofs.Boot
import Aesd.Proofs.Read
import Aesd.Proofs.Steps

namespace Aesd.Proofs
open Base Driver

variable {signal : Bool} {grant : Nat → Bool} {k k' : Kernel} {q : List Packet} {o : Pending}

/-- A call of a file operation. `signal` says whether its wait for the lock is
interrupted. -/
structure OpCall where
  op : FileOp
  signal : Bool

/-- Calls one after the other, up to a fault, with their return values. -/
def runOps : List OpCall → Kernel → Except Fault (List Int) × Kernel
  | [], k => (.ok [], k)
  | c :: calls, k =>
    match (aesdFops c.op).run c.signal k with
    | (.error e, k') => (.error e, k')
    | (.ok ret, k') =>
      match runOps calls k' with
      | (.error e, k'') => (.error e, k'')
      | (.ok rets, k'') => (.ok (ret :: rets), k'')

/-- From loading the module to unloading it. A failed allocation makes loading
report the 0 of `alloc_chrdev_region`, so that the module stays loaded, but there
is no device then on which calls could be made. -/
def moduleLife (grant : Nat → Bool) (stale : Nat → Nat → UInt8) (calls : List OpCall) :
    Except Fault (List Int) × Kernel :=
  match (aesdInitModule 0 0).run false ⟨.empty grant stale, .zero⟩ with
  | (.error e, k) => (.error e, k)
  | (.ok _, k) =>
    match runOps (if k.dev.cdev then calls else []) k with
    | (.error e, k') => (.error e, k')
    | (.ok rets, k') =>
      match aesdCleanupModule.run false k' with
      | (.error e, k'') => (.error e, k'')
      | (.ok (), k'') => (.ok rets, k'')

/-- The run comes to its end, so that nothing was freed that was not allocated, and
nothing is left then. -/
def Balanced (r : Except Fault (List Int) × Kernel) : Prop :=
  (∃ rets, r.1 = .ok rets) ∧ ∀ id, r.2.heap.view id = none

/-- A call that comes to nothing, in the state in which it is made: a read or a
write whose wait for the lock is interrupted, a write that gets no local buffer
or whose data cannot be copied, and any seek. A write of no bytes is none of these:
it does not return. -/
def Barren (c : OpCall) (k : Kernel) : Prop :=
  match c.op with
  | .read _ _ => c.signal = true
  | .write buf _ => c.signal = true ∨ (buf.data ≠ [] ∧
      (k.heap.granted (buf.count * sizeofCharPtr) = false ∨ buf.faults = true))
  | .ioctl _ _ _ _ => True

/-- Each of the calls comes to nothing in the state that the ones before it leave. -/
def AllBarren : List OpCall → Kernel → Prop
  | [], _ => True
  | c :: calls, k => Barren c k ∧ AllBarren calls ((aesdFops c.op).run c.signal k).2

/-- Only the three parts of the device are allocated. -/
structure Untouched (k : Kernel) : Prop where
  dev : k.dev = allocatedDev true
  live : k.heap.live = 3
  view : ∀ id, k.heap.view id ≠ none ↔ id < 3

theorem Booted.untouched (hb : Booted grant k) : Untouched k :=
  ⟨hb.allocated.1, hb.allocated.2.2.1, hb.allocated.2.2.2⟩

theorem Untouched.healthy (hk : Untouched k) : Healthy k [] .closed := healthy_of_allocated hk.dev

theorem Untouched.same {h : Heap} (hk : Untouched k) (hview : h.view = k.heap.view)
    (hlive : h.live = k.heap.live) : Untouched { k with heap := h } :=
  ⟨hk.dev, hlive.trans hk.live, by rw [hview]; exact hk.view⟩

/-- More is allocated than unloading the module will free. -/
structure Spoilt (k : Kernel) : Prop where
  healthy : ∃ q o, Healthy k q o
  buffer : k.dev.bufferPtr = .cell 0 0
  bufferEntry : k.dev.bufferEntryPtr = .cell 1 0
  surplus : (k.dev.readEntry = .cell 2 0 ∧ 4 ≤ k.heap.live) ∨
    ((k.dev.readEntry = .null ∨ ∃ n, k.dev.readEntry = .cell 0 n) ∧ 3 ≤ k.heap.live)

section Step

theorem run_ioctl (signal : Bool) (k : Kernel) (past : Nat → Nat) (cmd : Nat)
    (arg : Option (Nat × Nat)) (fPos : Int) :
    ∃ ret, (aesdFops (.ioctl past cmd arg fPos)).run signal k = (.ok ret, k) := by
  obtain ⟨res, hrun⟩ := aesd_ioctl_keeps signal k past cmd arg fPos
  exact ⟨_, Code.run_bind_ok hrun⟩

theorem run_read_interrupted (buf : UserDest) (fPos : Int) :
    (aesdFops (.read buf fPos)).run true k = (.ok (-ERESTARTSYS), k) := rfl

theorem run_write_interrupted (buf : UserSource) (fPos : Int) :
    (aesdFops (.write buf fPos)).run true k = (.ok (-ERESTARTSYS), k) := rfl

theorem run_read (buf : UserDest) (fPos : Int) (hk : Healthy k q o) :
    ∃ ret k', (aesdFops (.read buf fPos)).run false k = (.ok ret, k') ∧ Healthy k' q o ∧
      Leaves k k' := by
  obtain ⟨res, k', d, hrun, _, hk', hleaves, _⟩ := aesd_read_gives buf fPos hk.toSound
  exact ⟨res.retval, k', Code.run_bind_ok hrun, hleaves.healthy hk hk', hleaves⟩

/-- What a read leaves in `read_entry` is not the block allocated for it. -/
theorem Leaves.spoilt (hl : Leaves k k') (hk : Healthy k' q o)
    (hbuf : k.dev.bufferPtr = .cell 0 0) (hentry : k.dev.bufferEntryPtr = .cell 1 0)
    (hlive : 3 ≤ k.heap.live) : Spoilt k' := by
  obtain ⟨r, hdev, hr⟩ := hl.dev
  refine ⟨⟨q, o, hk⟩, by rw [hdev, ← hbuf], by rw [hdev, ← hentry],
    Or.inr ⟨?_, Nat.le_trans hlive hl.live⟩⟩
  rw [hdev]
  refine hr.imp_right (fun ⟨n, hn⟩ => ⟨n, ?_⟩)
  simp [hn, hbuf, Heap.Ptr.advance]

/-- The first call that is not barren spoils the ledger. -/
theorem Untouched.step (hk : Untouched k) (c : OpCall) :
    (¬ Barren c k ∧ ∃ e k', (aesdFops c.op).run c.signal k = (.error e, k')) ∨
    ∃ ret k', (aesdFops c.op).run c.signal k = (.ok ret, k') ∧
      ((Barren c k ∧ Untouched k') ∨ (¬ Barren c k ∧ Spoilt k')) := by
  have hbuf : k.dev.bufferPtr = .cell 0 0 := by rw [hk.dev]; rfl
  have hentry : k.dev.bufferEntryPtr = .cell 1 0 := by rw [hk.dev]; rfl
  have hread : k.dev.readEntry = .cell 2 0 := by rw [hk.dev]; rfl
  obtain ⟨op, signal⟩ := c
  cases op with
  | ioctl past cmd arg fPos =>
    obtain ⟨ret, hrun⟩ := run_ioctl signal k past cmd arg fPos
    exact Or.inr ⟨ret, k, hrun, Or.inl ⟨trivial, hk⟩⟩
  | read buf fPos =>
    right
    cases signal with
    | true => exact ⟨_, k, run_read_interrupted buf fPos, Or.inl ⟨rfl, hk⟩⟩
    | false =>
      obtain ⟨ret, k', hrun, hk', hleaves⟩ := run_read buf fPos hk.healthy
      exact ⟨ret, k', hrun, Or.inr ⟨by simp [Barren],
        hleaves.spoilt hk' hbuf hentry (Nat.le_of_eq hk.live.symm)⟩⟩
  | write buf fPos =>
    cases signal with
    | true => exact Or.inr ⟨_, k, run_write_interrupted buf fPos, Or.inl ⟨Or.inl rfl, hk⟩⟩
    | false =>
      by_cases hne : buf.data = []
      · exact Or.inl ⟨by simp [Barren, hne], _, k, Code.run_bind_error (aesd_write_empty fPos hne)⟩
      cases hg : k.heap.granted (buf.count * sizeofCharPtr) with
      | false =>
        exact Or.inr ⟨_, _, Code.run_bind_ok (write_denied fPos hne hg),
          Or.inl ⟨Or.inr ⟨hne, Or.inl hg⟩, hk.same rfl rfl⟩⟩
      | true =>
        cases hf : buf.faults with
        | true =>
          obtain ⟨h, hrun, hview, _, hlive⟩ := write_faulted fPos hne hg hf
          exact Or.inr ⟨_, _, Code.run_bind_ok hrun,
            Or.inl ⟨Or.inr ⟨hne, Or.inr hf⟩, hk.same hview hlive⟩⟩
        | false =>
          have hnot : ¬ Barren ⟨.write buf fPos, false⟩ k := by simp [Barren, hg, hf]
          rcases write_appends fPos hk.healthy hne hg hf with
            ⟨e, k', hrun, _⟩ | ⟨ret, k', q', o', d, hrun, _, hk', _, hadds, hopen⟩
          · exact Or.inl ⟨hnot, e, k', Code.run_bind_error hrun⟩
          · have hret := hopen rfl
            have hlive := hadds.live
            have hparts := hadds.parts
            rw [gain, if_pos hret, hk.live] at hlive
            simp only [parts, hbuf, hentry, hread, Prod.mk.injEq] at hparts
            exact Or.inr ⟨ret.1, k', Code.run_bind_ok hrun, Or.inr ⟨hnot, ⟨q', o', hk'⟩, hparts.1,
              hparts.2.1, Or.inl ⟨hparts.2.2, hlive⟩⟩⟩

/-- Nothing makes up for it later. -/
theorem Spoilt.step (hk : Spoilt k) (c : OpCall) :
    (∃ e k', (aesdFops c.op).run c.signal k = (.error e, k') ∧
      (e = .nullDeref ∨ e = .outOfBounds)) ∨
    ∃ ret k', (aesdFops c.op).run c.signal k = (.ok ret, k') ∧ Spoilt k' := by
  obtain ⟨⟨q, o, hh⟩, hbuf, hentry, hsurplus⟩ := id hk
  obtain ⟨op, signal⟩ := c
  cases op with
  | ioctl past cmd arg fPos =>
    obtain ⟨ret, hrun⟩ := run_ioctl signal k past cmd arg fPos
    exact Or.inr ⟨ret, k, hrun, hk⟩
  | read buf fPos =>
    right
    cases signal with
    | true => exact ⟨_, k, run_read_interrupted buf fPos, hk⟩
    | false =>
      obtain ⟨ret, k', hrun, hk', hleaves⟩ := run_read buf fPos hh
      exact ⟨ret, k', hrun, hleaves.spoilt hk' hbuf hentry (by omega)⟩
  | write buf fPos =>
    cases signal with
    | true => exact Or.inr ⟨_, k, run_write_interrupted buf fPos, hk⟩
    | false =>
      by_cases hne : buf.data = []
      · exact Or.inl ⟨_, k, Code.run_bind_error (aesd_write_empty fPos hne), Or.inr rfl⟩
      rcases aesd_write_lands fPos hh hne with
        ⟨e, k', hrun, he, _⟩ | ⟨ret, k', q', o', d, hrun, _, hk', _, hadds⟩
      · exact Or.inl ⟨e, k', Code.run_bind_error hrun, he⟩
      · have hlive := hadds.live
        have hparts := hadds.parts
        simp only [parts, hbuf, hentry, Prod.mk.injEq] at hparts
        refine Or.inr ⟨ret.1, k', Code.run_bind_ok hrun, ⟨q', o', hk'⟩, hparts.1, hparts.2.1, ?_⟩
        rw [hparts.2.2]
        exact hsurplus.imp (fun h => ⟨h.1, by omega⟩) (fun h => ⟨h.1, by omega⟩)

end Step

section Run

theorem runOps_cons {c : OpCall} {calls : List OpCall} {ret : Int}
    (hrun : (aesdFops c.op).run c.signal k = (.ok ret, k')) :
    runOps (c :: calls) k = match runOps calls k' with
      | (.error e, k'') => (.error e, k'')
      | (.ok rets, k'') => (.ok (ret :: rets), k'') := by
  simp only [runOps, hrun]

theorem runOps_error {c : OpCall} {calls : List OpCall} {e : Fault}
    (hrun : (aesdFops c.op).run c.signal k = (.error e, k')) :
    runOps (c :: calls) k = (.error e, k') := by
  simp only [runOps, hrun]

/-- What each call preserves, or ends the run with, a run of calls does. -/
theorem runOps_rule {I : Kernel → Prop} {E : Fault → Prop}
    (hstep : ∀ k, I k → ∀ c : OpCall,
      (∃ e k', (aesdFops c.op).run c.signal k = (.error e, k') ∧ E e) ∨
      ∃ ret k', (aesdFops c.op).run c.signal k = (.ok ret, k') ∧ I k')
    (calls : List OpCall) (hk : I k) :
    (∃ e k', runOps calls k = (.error e, k') ∧ E e) ∨
    ∃ rets k', runOps calls k = (.ok rets, k') ∧ I k' := by
  induction calls generalizing k with
  | nil => exact Or.inr ⟨[], k, rfl, hk⟩
  | cons c calls ih =>
    rcases hstep k hk c with ⟨e, k₁, hrun, he⟩ | ⟨ret, k₁, hrun, hk₁⟩
    · exact Or.inl ⟨e, k₁, runOps_error hrun, he⟩
    · rw [runOps_cons hrun]
      rcases ih hk₁ with ⟨e, k₂, hrun₂, he⟩ | ⟨rets, k₂, hrun₂, hk₂⟩ <;> rw [hrun₂]
      · exact Or.inl ⟨e, k₂, rfl, he⟩
      · exact Or.inr ⟨_, k₂, rfl, hk₂⟩

theorem Spoilt.run (calls : List OpCall) (hk : Spoilt k) :
    (∃ e k', runOps calls k = (.error e, k') ∧ (e = .nullDeref ∨ e = .outOfBounds)) ∨
    ∃ rets k', runOps calls k = (.ok rets, k') ∧ Spoilt k' :=
  runOps_rule (fun _ hk c => hk.step c) calls hk

/-- All calls were barren, or one of them has spoilt the ledger. -/
theorem Untouched.run (calls : List OpCall) (hk : Untouched k) :
    (¬ AllBarren calls k ∧ ∃ e k', runOps calls k = (.error e, k')) ∨
    ∃ rets k', runOps calls k = (.ok rets, k') ∧
      ((AllBarren calls k ∧ Untouched k') ∨ (¬ AllBarren calls k ∧ Spoilt k')) := by
  induction calls generalizing k with
  | nil => exact Or.inr ⟨[], k, rfl, Or.inl ⟨trivial, hk⟩⟩
  | cons c calls ih =>
    rcases hk.step c with ⟨hnot, e, k₁, hrun⟩ | ⟨ret, k₁, hrun, ⟨hbarren, hk₁⟩ | ⟨hnot, hk₁⟩⟩
    · exact Or.inl ⟨fun h => hnot h.1, e, k₁, runOps_error hrun⟩
    · have hrest : AllBarren (c :: calls) k ↔ AllBarren calls k₁ := by
        simp [AllBarren, hbarren, hrun]
      rw [runOps_cons hrun, hrest]
      rcases ih hk₁ with ⟨hnot, e, k₂, hrun₂⟩ | ⟨rets, k₂, hrun₂, hcase⟩ <;> rw [hrun₂]
      · exact Or.inl ⟨hnot, e, k₂, rfl⟩
      · exact Or.inr ⟨_, k₂, rfl, hcase⟩
    · rw [runOps_cons hrun]
      rcases hk₁.run calls with ⟨e, k₂, hrun₂, _⟩ | ⟨rets, k₂, hrun₂, hk₂⟩ <;> rw [hrun₂]
      · exact Or.inl ⟨fun h => hnot h.1, e, k₂, rfl⟩
      · exact Or.inr ⟨_, k₂, rfl, Or.inr ⟨fun h => hnot h.1, hk₂⟩⟩

end Run

section Unload

/-- Unloading frees the three parts, or stumbles over one of them. -/
theorem cleanup_cases (signal : Bool) (k : Kernel) :
    (∃ k', aesdCleanupModule.run signal k = (.error .badFree, k')) ∨
    ∃ h₁ h₂ h₃, k.heap.kfree k.dev.readEntry = .ok h₁ ∧ h₁.kfree k.dev.bufferEntryPtr = .ok h₂ ∧
      h₂.kfree k.dev.bufferPtr = .ok h₃ ∧
      aesdCleanupModule.run signal k = (.ok (), ⟨h₃, { k.dev with cdev := false }⟩) := by
  cases hr : k.heap.kfree k.dev.readEntry with
  | error e =>
    obtain rfl := Heap.kfree_error hr
    exact Or.inl ⟨⟨k.heap, { k.dev with cdev := false }⟩, by
      simp only [aesdCleanupModule, Code.run_bind, run_setDev, run_getDev, run_kfree, hr]⟩
  | ok h₁ =>
    cases he : h₁.kfree k.dev.bufferEntryPtr with
    | error e =>
      obtain rfl := Heap.kfree_error he
      exact Or.inl ⟨⟨h₁, { k.dev with cdev := false }⟩, by
        simp only [aesdCleanupModule, Code.run_bind, run_setDev, run_getDev, run_kfree, hr, he]⟩
    | ok h₂ =>
      cases hb : h₂.kfree k.dev.bufferPtr with
      | error e =>
        obtain rfl := Heap.kfree_error hb
        exact Or.inl ⟨⟨h₂, { k.dev with cdev := false }⟩, by
          simp only [aesdCleanupModule, Code.run_bind, run_setDev, run_getDev, run_kfree, hr, he, hb]⟩
      | ok h₃ => exact Or.inr ⟨h₁, h₂, h₃, rfl, he, hb, run_cleanup hr he hb⟩

/-- The second cleanup after a failed load. -/
theorem double_free (hbuf : k.dev.bufferPtr = .cell 0 0) (hgone : k.heap.view 0 = none) :
    ∃ k', aesdCleanupModule.run false k = (.error .badFree, k') := by
  rcases cleanup_cases false k with hbad | ⟨h₁, h₂, h₃, hf₁, hf₂, hf₃, _⟩
  · exact hbad
  · have hstill := Heap.kfree_keeps_none hf₂ (Heap.kfree_keeps_none hf₁ hgone)
    rw [hbuf, Heap.kfree_none hstill] at hf₃
    cases hf₃

theorem Untouched.cleanup (hk : Untouched k) :
    ∃ k', aesdCleanupModule.run false k = (.ok (), k') ∧ ∀ id, k'.heap.view id = none := by
  have hlive : ∀ id, id < 3 → ∃ bs, k.heap.view id = some bs := fun id hid =>
    Option.ne_none_iff_exists'.mp ((hk.view id).mpr hid)
  obtain ⟨b₂, h₂⟩ := hlive 2 (by omega)
  obtain ⟨b₁, h₁⟩ := hlive 1 (by omega)
  obtain ⟨b₀, h₀⟩ := hlive 0 (by omega)
  have hf₂ : k.heap.kfree k.dev.readEntry = .ok (k.heap.retire 2) := by
    rw [hk.dev]
    exact Heap.kfree_cell h₂
  have hf₁ : (k.heap.retire 2).kfree k.dev.bufferEntryPtr = .ok ((k.heap.retire 2).retire 1) := by
    rw [hk.dev]
    exact Heap.kfree_cell (by simpa using h₁)
  have hf₀ : ((k.heap.retire 2).retire 1).kfree k.dev.bufferPtr =
      .ok (((k.heap.retire 2).retire 1).retire 0) := by
    rw [hk.dev]
    exact Heap.kfree_cell (by simpa using h₀)
  refine ⟨_, run_cleanup hf₂ hf₁ hf₀, fun id => ?_⟩
  by_cases hid : id < 3
  · have hparts : id = 0 ∨ id = 1 ∨ id = 2 := by omega
    rcases hparts with rfl | rfl | rfl <;> simp
  · have hnone : k.heap.view id = none := by
      by_contra hsome
      exact hid ((hk.view id).mp hsome)
    have hne : id ≠ 0 ∧ id ≠ 1 ∧ id ≠ 2 := by omega
    simp [hne, hnone]

theorem Spoilt.cleanup (hk : Spoilt k) :
    (∃ k', aesdCleanupModule.run false k = (.error .badFree, k')) ∨
    ∃ k' id, aesdCleanupModule.run false k = (.ok (), k') ∧ k'.heap.view id ≠ none := by
  rcases cleanup_cases false k with hbad | ⟨h₁, h₂, h₃, hf₁, hf₂, hf₃, hrun⟩
  · exact Or.inl hbad
  have hl₁ := Heap.live_kfree hf₁
  have hl₂ := Heap.live_kfree hf₂
  have hl₃ := Heap.live_kfree hf₃
  have hleft : 0 < h₃.live → ∃ k' id, aesdCleanupModule.run false k = (.ok (), k') ∧
      k'.heap.view id ≠ none := by
    intro hpos
    obtain ⟨id, hid⟩ := Heap.exists_of_live hpos
    exact ⟨_, id, hrun, hid⟩
  rcases hk.surplus with ⟨_, hlive⟩ | ⟨hnull | ⟨n, hcell⟩, hlive⟩
  · exact Or.inr (hleft (by omega))
  · rw [hnull] at hf₁
    obtain rfl : k.heap = h₁ := by simpa [Heap.kfree] using hf₁
    exact Or.inr (hleft (by omega))
  · -- the ring is freed as `read_entry` and then once more as `buffer`
    rw [hcell] at hf₁
    rw [hk.buffer] at hf₃
    have hgone := Heap.kfree_keeps_none hf₂ (Heap.view_of_kfree hf₁)
    rw [Heap.kfree_none hgone] at hf₃
    cases hf₃

end Unload

section Life
variable {stale : Nat → Nat → UInt8} {calls : List OpCall}

theorem life_first_denied (h0 : grant 0 = false) :
    moduleLife grant stale calls = (.ok [], ⟨(Heap.empty grant stale).deny, .zero⟩) := by
  simp only [moduleLife, init_first_denied false stale 0 0 (by decide) h0]
  rfl

theorem life_later_denied (h0 : grant 0 = true) (hd : grant 1 = false ∨ grant 2 = false) :
    ∃ k, moduleLife grant stale calls = (.error .badFree, k) := by
  obtain ⟨k, hinit, hcdev, hbuf, hgone⟩ := init_later_denied false stale 0 0 (by decide) h0 hd
  obtain ⟨k', hclean⟩ := double_free hbuf hgone
  exact ⟨k', by
    simp only [moduleLife, hinit, hcdev, Bool.false_eq_true, ↓reduceIte, runOps, hclean]⟩

theorem life_granted (stale : Nat → Nat → UInt8) (calls : List OpCall) (h0 : grant 0 = true)
    (h1 : grant 1 = true) (h2 : grant 2 = true) :
    moduleLife grant stale calls = match runOps calls (loaded grant stale) with
      | (.error e, k') => (.error e, k')
      | (.ok rets, k') =>
        match aesdCleanupModule.run false k' with
        | (.error e, k'') => (.error e, k'')
        | (.ok (), k'') => (.ok rets, k'') := by
  obtain ⟨hinit, hcdev⟩ := run_init_of_granted stale h0 h1 h2
  simp only [moduleLife, hinit, hcdev, ↓reduceIte]

theorem balanced_iff_of_granted (stale : Nat → Nat → UInt8) (calls : List OpCall)
    (h0 : grant 0 = true) (h1 : grant 1 = true) (h2 : grant 2 = true) :
    Balanced (moduleLife grant stale calls) ↔ AllBarren calls (loaded grant stale) := by
  have hb : Booted grant (loaded grant stale) := ⟨stale, run_init_of_granted stale h0 h1 h2⟩
  rw [life_granted stale calls h0 h1 h2]
  rcases hb.untouched.run calls with
    ⟨hnot, e, k', hrun⟩ | ⟨rets, k', hrun, ⟨hbarren, hk⟩ | ⟨hnot, hk⟩⟩ <;> rw [hrun]
  · exact iff_of_false (by simp [Balanced]) hnot
  · obtain ⟨k'', hclean, hnone⟩ := hk.cleanup
    simp only [hclean]
    exact iff_of_true ⟨⟨rets, rfl⟩, hnone⟩ hbarren
  · refine iff_of_false (fun hbal => ?_) hnot
    rcases hk.cleanup with ⟨k'', hclean⟩ | ⟨k'', id, hclean, hid⟩ <;> simp only [hclean] at hbal
    · exact absurd hbal.1 (by simp)
    · exact absurd (hbal.2 id) hid

end Life

/-- The life of a module that is unloaded in the end is balanced exactly if its
first allocation failed, or all three succeeded and every call was barren. -/
theorem module_life_balanced_iff (grant : Nat → Bool) (stale : Nat → Nat → UInt8)
    (calls : List OpCall) :
    Balanced (moduleLife grant stale calls) ↔ grant 0 = false ∨
      (grant 1 = true ∧ grant 2 = true ∧ AllBarren calls (loaded grant stale)) := by
  cases h0 : grant 0 with
  | false =>
    rw [life_first_denied h0]
    exact iff_of_true ⟨⟨[], rfl⟩, fun _ => rfl⟩ (Or.inl rfl)
  | true =>
    by_cases hd : grant 1 = false ∨ grant 2 = false
    · obtain ⟨k, hlife⟩ : ∃ k, moduleLife grant stale calls = (.error .badFree, k) :=
        life_later_denied h0 hd
      rw [hlife]
      refine iff_of_false (by simp [Balanced]) ?_
      rintro (h | ⟨h1, h2, _⟩)
      · cases h
      · simp [h1, h2] at hd
    · obtain ⟨h1, h2⟩ : grant 1 = true ∧ grant 2 = true := by simpa using hd
      rw [balanced_iff_of_granted stale calls h0 h1 h2]
      simp [h1, h2]

/-- A packet that is written is never freed. One that is read on top of that
makes `read_entry` point to the ring, which is then freed twice. A packet whose
continuation got no memory is forgotten: the next write goes on with a new block,
and the old one is left as well. -/
theorem packet_outlives_module :
    ((moduleLife plenty cleared [⟨.write ⟨[104, 10], false⟩ 0, false⟩]).1 = .ok [2] ∧
      (moduleLife plenty cleared [⟨.write ⟨[104, 10], false⟩ 0, false⟩]).2.heap.view 4 =
        some [some 104, some 10, some 0]) ∧
    (moduleLife plenty cleared
      [⟨.write ⟨[104, 10], false⟩ 0, false⟩, ⟨.read ⟨9, none⟩ 0, false⟩]).1 = .error .badFree ∧
    ((moduleLife (allBut 6) cleared [⟨.write ⟨[120], false⟩ 0, false⟩,
        ⟨.write ⟨[121, 10], false⟩ 0, false⟩, ⟨.write ⟨[122, 10], false⟩ 0, false⟩]).1 =
        .ok [1, -ENOMEM, 2] ∧
      (moduleLife (allBut 6) cleared [⟨.write ⟨[120], false⟩ 0, false⟩,
        ⟨.write ⟨[121, 10], false⟩ 0, false⟩, ⟨.write ⟨[122, 10], false⟩ 0, false⟩]).2.heap.view 4 =
        some [some 120, some 0]) := by
  decide +kernel

end Aesd.Proofs
