import Aesd.Proofs.Write

namespace Aesd.Proofs
open Base Driver CString

variable {signal : Bool} {grant : Nat → Bool} {stale : Nat → Nat → UInt8} {k : Kernel}

section Init
variable {n : Nat} {set : Ptr → AesdDev → AesdDev}

theorem run_allocPart_granted (hn : n ≠ 0) (hg : k.heap.granted n = true) :
    (allocPart n set).run signal k = (.ok true,
      ⟨k.heap.push (List.replicate n none), set (.cell k.heap.blocks.length 0) k.dev⟩) := by
  simp only [allocPart, Code.run_bind, run_kmalloc, Heap.kmalloc_granted hn hg, run_setDev]
  rfl

theorem run_allocPart_denied (hn : n ≠ 0) (hg : k.heap.granted n = false) :
    (allocPart n set).run signal k = (.ok false, ⟨k.heap.deny, set .null k.dev⟩) := by
  simp only [allocPart, Code.run_bind, run_kmalloc, Heap.kmalloc_denied hn hg, run_setDev]
  rfl

end Init

/-- The heap after the first `n` allocations of the module. -/
def initHeap (grant : Nat → Bool) (stale : Nat → Nat → UInt8) : Nat → Heap
  | 0 => .empty grant stale
  | 1 => (initHeap grant stale 0).push (List.replicate sizeofCircularBuffer none)
  | n + 2 => (initHeap grant stale (n + 1)).push (List.replicate sizeofBufferEntry none)

theorem initHeap_granted (grant : Nat → Bool) (stale : Nat → Nat → UInt8) (i n : Nat)
    (hn : n ≤ kmallocMaxSize) :
    (initHeap grant stale i).granted n = grant i := by
  have hreq : (initHeap grant stale i).requests = i ∧ (initHeap grant stale i).grant = grant := by
    induction i using initHeap.induct with
    | case1 => exact ⟨rfl, rfl⟩
    | case2 ih => exact ⟨rfl, rfl⟩
    | case3 i ih => exact ⟨congrArg Nat.succ ih.1, ih.2⟩
  simp [Heap.granted, hn, hreq]

theorem run_cleanup {h₁ h₂ h₃ : Heap} (hread : k.heap.kfree k.dev.readEntry = .ok h₁)
    (hentry : h₁.kfree k.dev.bufferEntryPtr = .ok h₂) (hbuf : h₂.kfree k.dev.bufferPtr = .ok h₃) :
    aesdCleanupModule.run signal k = (.ok (), ⟨h₃, { k.dev with cdev := false }⟩) := by
  simp only [aesdCleanupModule, Code.run_bind, run_setDev, run_getDev, run_kfree, hread, hentry, hbuf]

/-- The device with all of its parts, registered or not. -/
def allocatedDev (cdev : Bool) : AesdDev :=
  { AesdDev.zero with
    bufferPtr := .cell 0 0, bufferEntryPtr := .cell 1 0, readEntry := .cell 2 0, cdev := cdev }

theorem init_allocs (signal : Bool) (stale : Nat → Nat → UInt8) (h0 : grant 0 = true)
    (h1 : grant 1 = true) (h2 : grant 2 = true) : initAllocs.run signal ⟨.empty grant stale, .zero⟩ =
      (.ok true, ⟨initHeap grant stale 3, allocatedDev false⟩) := by
  have hg (i n : Nat) (hn : n ≤ kmallocMaxSize) (hi : grant i = true) :
      (initHeap grant stale i).granted n = true := by rw [initHeap_granted grant stale i n hn, hi]
  simp only [initAllocs]
  rw [Code.run_bind_ok (run_allocPart_granted (by decide) (hg 0 _ (by decide) h0))]
  simp only [Bool.not_true, Bool.false_eq_true, ↓reduceIte]
  rw [Code.run_bind_ok (run_allocPart_granted (by decide) (hg 1 _ (by decide) h1))]
  simp only [Bool.not_true, Bool.false_eq_true, ↓reduceIte]
  exact run_allocPart_granted (by decide) (hg 2 _ (by decide) h2)

/-- With memory for all of them the three parts are cleared, and the rest is up
to `cdev_add`. -/
theorem init_granted (signal : Bool) (stale : Nat → Nat → UInt8) (region cdevAdd : Int)
    (hr : ¬ region < 0) (h0 : grant 0 = true) (h1 : grant 1 = true) (h2 : grant 2 = true) :
    ∃ h, (aesdInitModule region cdevAdd).run signal ⟨.empty grant stale, .zero⟩ =
        (.ok cdevAdd, ⟨h, allocatedDev (decide (cdevAdd = 0))⟩) ∧
      h.denied = 0 ∧ h.live = 3 ∧ ∀ id, h.view id ≠ none ↔ id < 3 := by
  let ha := initHeap grant stale 3
  have hv0 : ha.view 0 = some (List.replicate sizeofCircularBuffer none) := rfl
  let hb := ha.put 0 (List.replicate sizeofCircularBuffer (some 0))
  have hv1 : hb.view 1 = some (List.replicate sizeofBufferEntry none) := rfl
  let hc := hb.put 1 (List.replicate sizeofBufferEntry (some 0))
  have hv2 : hc.view 2 = some (List.replicate sizeofBufferEntry none) := rfl
  let hd := hc.put 2 (List.replicate sizeofBufferEntry (some 0))
  have hm0 : (memset (.cell 0 0) 0 sizeofCircularBuffer).run signal ⟨ha, allocatedDev false⟩ =
      (.ok (), ⟨hb, allocatedDev false⟩) := run_memset_cell hv0 0 (by simp)
  have hm1 : (memset (.cell 1 0) 0 sizeofBufferEntry).run signal ⟨hb, allocatedDev false⟩ =
      (.ok (), ⟨hc, allocatedDev false⟩) := run_memset_cell hv1 0 (by simp)
  have hm2 : (memset (.cell 2 0) 0 sizeofBufferEntry).run signal ⟨hc, allocatedDev false⟩ =
      (.ok (), ⟨hd, allocatedDev false⟩) := run_memset_cell hv2 0 (by simp)
  refine ⟨hd, ?_, rfl, ?_, ?_⟩
  · have hrun := init_allocs signal stale h0 h1 h2
    simp only [aesdInitModule, hr, ↓reduceIte, Code.run_bind, run_setDev, hrun, run_getDev]
    simp only [allocatedDev] at hm0 hm1 hm2 ⊢
    rw [hm0]
    simp only [hm1]
    simp only [hm2]
    rfl
  · rw [Heap.live_put hv2, Heap.live_put hv1, Heap.live_put hv0]
    rfl
  · intro id
    match id with
    | 0 => simp [hd, hc, hb, ha, initHeap, Heap.empty]
    | 1 => simp [hd, hc, hb, ha, initHeap, Heap.empty]
    | 2 => simp [hd, hc, hb, ha, initHeap, Heap.empty]
    | n + 3 =>
      simp only [Heap.view_fresh (h := hd) (Nat.le_add_left 3 n)]
      simp

theorem init_refused {region cdevAdd : Int} {k₁ k₂ : Kernel} (hr : ¬ region < 0)
    (ha : initAllocs.run signal ⟨.empty grant stale, .zero⟩ = (.ok false, k₁))
    (hc : aesdCleanupModule.run signal k₁ = (.ok (), k₂)) :
    (aesdInitModule region cdevAdd).run signal ⟨.empty grant stale, .zero⟩ = (.ok region, k₂) := by
  simp only [aesdInitModule, hr, ↓reduceIte, Code.run_bind, run_setDev, ha, Bool.false_eq_true, hc,
    Code.run_pure]

/-- Without memory for the ring there is nothing to clean up. -/
theorem init_first_denied (signal : Bool) (stale : Nat → Nat → UInt8) (region cdevAdd : Int)
    (hr : ¬ region < 0) (h0 : grant 0 = false) :
    (aesdInitModule region cdevAdd).run signal ⟨.empty grant stale, .zero⟩ =
      (.ok region, ⟨(Heap.empty grant stale).deny, .zero⟩) := by
  have hg : (Heap.empty grant stale).granted sizeofCircularBuffer = false :=
    (initHeap_granted grant stale 0 _ (by decide)).trans h0
  have ha : initAllocs.run signal ⟨.empty grant stale, .zero⟩ =
      (.ok false, ⟨(Heap.empty grant stale).deny, .zero⟩) := by
    simp only [initAllocs]
    rw [Code.run_bind_ok (run_allocPart_denied (by decide) hg)]
    rfl
  exact init_refused hr ha (run_cleanup rfl rfl rfl)

/-- A later refusal frees what had been allocated, and the device is not
registered. The pointers to the freed parts stay. -/
theorem init_later_denied (signal : Bool) (stale : Nat → Nat → UInt8) (region cdevAdd : Int)
    (hr : ¬ region < 0) (h0 : grant 0 = true) (hd : grant 1 = false ∨ grant 2 = false) :
    ∃ k', (aesdInitModule region cdevAdd).run signal ⟨.empty grant stale, .zero⟩ = (.ok region, k') ∧
      k'.dev.cdev = false ∧ k'.dev.bufferPtr = .cell 0 0 ∧ k'.heap.view 0 = none := by
  have hg (i n : Nat) (b : Bool) (hn : n ≤ kmallocMaxSize) (hi : grant i = b) :
      (initHeap grant stale i).granted n = b := (initHeap_granted grant stale i n hn).trans hi
  by_cases h1 : grant 1 = true
  · have h2 : grant 2 = false := by simpa [h1] using hd
    have ha : initAllocs.run signal ⟨.empty grant stale, .zero⟩ = (.ok false,
        ⟨(initHeap grant stale 2).deny, { allocatedDev false with readEntry := .null }⟩) := by
      simp only [initAllocs]
      rw [Code.run_bind_ok (run_allocPart_granted (by decide) (hg 0 _ _ (by decide) h0))]
      simp only [Bool.not_true, Bool.false_eq_true, ↓reduceIte]
      rw [Code.run_bind_ok (run_allocPart_granted (by decide) (hg 1 _ _ (by decide) h1))]
      simp only [Bool.not_true, Bool.false_eq_true, ↓reduceIte]
      exact run_allocPart_denied (by decide) (hg 2 _ _ (by decide) h2)
    exact ⟨_, init_refused hr ha (run_cleanup rfl rfl rfl), rfl, rfl, rfl⟩
  · have h1 : grant 1 = false := by simpa using h1
    have ha : initAllocs.run signal ⟨.empty grant stale, .zero⟩ = (.ok false,
        ⟨(initHeap grant stale 1).deny, { AesdDev.zero with bufferPtr := .cell 0 0 }⟩) := by
      simp only [initAllocs]
      rw [Code.run_bind_ok (run_allocPart_granted (by decide) (hg 0 _ _ (by decide) h0))]
      simp only [Bool.not_true, Bool.false_eq_true, ↓reduceIte]
      rw [Code.run_bind_ok (run_allocPart_denied (by decide) (hg 1 _ _ (by decide) h1))]
      rfl
    exact ⟨_, init_refused hr ha (run_cleanup rfl rfl rfl), rfl, rfl, rfl⟩

/-- Loading the module has registered the device, with the system answering
requests for memory as `grant` says, and whatever that memory held before. -/
def Booted (grant : Nat → Bool) (k : Kernel) : Prop :=
  ∃ stale, (aesdInitModule 0 0).run false ⟨.empty grant stale, .zero⟩ = (.ok 0, k) ∧
    k.dev.cdev = true

theorem Booted.allocated (hb : Booted grant k) :
    k.dev = allocatedDev true ∧ k.heap.denied = 0 ∧ k.heap.live = 3 ∧
      ∀ id, k.heap.view id ≠ none ↔ id < 3 := by
  obtain ⟨stale, hrun, hcdev⟩ := hb
  by_cases h0 : grant 0 = true
  · by_cases hd : grant 1 = false ∨ grant 2 = false
    · obtain ⟨k', hrun', hc, _⟩ := init_later_denied false stale 0 0 (by decide) h0 hd
      rw [hrun'] at hrun
      obtain rfl : k' = k := by simpa using hrun
      simp [hc] at hcdev
    · obtain ⟨h1, h2⟩ : grant 1 = true ∧ grant 2 = true := by simpa using hd
      obtain ⟨h, hrun', hkept⟩ := init_granted false stale 0 0 (by decide) h0 h1 h2
      rw [hrun'] at hrun
      obtain rfl : _ = k := by simpa using hrun
      exact ⟨rfl, hkept⟩
  · rw [init_first_denied false stale 0 0 (by decide) (by simpa using h0)] at hrun
    obtain rfl : _ = k := by simpa using hrun
    simp [AesdDev.zero] at hcdev

/-- The initial device state. -/
theorem healthy_of_allocated (hdev : k.dev = allocatedDev true) : Healthy k [] .closed := by
  refine ⟨⟨?_, by simp, by simp, by simp [owned, Pending.ids], ?_⟩, by simp [hdev]; rfl,
    Or.inl trivial⟩
  · rw [hdev]
    exact init_ring
  · simp only [Pending.Matches, hdev]
    rfl

theorem Booted.healthy (hb : Booted grant k) : Healthy k [] .closed :=
  healthy_of_allocated hb.allocated.1

/-- The state after loading the module. -/
def loaded (grant : Nat → Bool) (stale : Nat → Nat → UInt8) : Kernel :=
  ((aesdInitModule 0 0).run false ⟨.empty grant stale, .zero⟩).2

theorem run_init_of_granted (stale : Nat → Nat → UInt8) (h0 : grant 0 = true) (h1 : grant 1 = true)
    (h2 : grant 2 = true) :
    (aesdInitModule 0 0).run false ⟨.empty grant stale, .zero⟩ = (.ok 0, loaded grant stale) ∧
      (loaded grant stale).dev.cdev = true := by
  obtain ⟨h, hrun, _⟩ := init_granted false stale 0 0 (by decide) h0 h1 h2
  simp only [loaded, hrun]
  exact ⟨trivial, rfl⟩

/-- Memory that was cleared before. -/
def cleared : Nat → Nat → UInt8 := fun _ _ => 0

def booted (grant : Nat → Bool) : Kernel := loaded grant cleared

theorem booted_of_granted (h0 : grant 0 = true) (h1 : grant 1 = true) (h2 : grant 2 = true) :
    Booted grant (booted grant) := ⟨_, run_init_of_granted _ h0 h1 h2⟩

/-- Memory without end. -/
def plenty : Nat → Bool := fun _ => true

/-- All requests for memory but one are granted. -/
def allBut (n : Nat) : Nat → Bool := fun i => decide (i ≠ n)

theorem booted_plenty : Booted plenty (booted plenty) := booted_of_granted rfl rfl rfl

end Aesd.Proofs
