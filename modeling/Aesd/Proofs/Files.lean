import Aesd.Proofs.Echo
import Aesd.Proofs.GivenBack
import Aesd.Server.World

namespace Aesd.Proofs
open Base Driver Server CString Segments

/-- The file that a session has open at a place. -/
def openFile : Place → Fd
  | .outside fd => fd
  | .inside fd => fd
  | .sought fd => fd
  | .replying _ fd => fd
  | .pending _ fd _ => fd
  | .replied _ fd => fd
  | .marked fd => fd
  | _ => none

/-- The session is in its reply: about to read, or to send what it has read. -/
def underWay : Place → Bool
  | .replying _ _ => true
  | .pending _ _ _ => true
  | _ => false

section Device
variable {g : Groups UInt8}

/-- A read without a denial finds the end, or gets the rest of a packet. -/
inductive Got (texts : List (List UInt8)) (p : Int) : ReadResult → Prop
  | atEnd : Got texts p ⟨0, p, []⟩
  | rest {i j n : Nat} (h : locate (lengths texts) (sizeT p) = some (i, j))
      (hn : n = (texts.getD i []).length - j) :
      Got texts p ⟨n, loff (p + n), (texts.getD i []).drop j ++ [0]⟩

theorem Keeps.reads {k : Kernel} (hk : Keeps k g) (count : Nat) (p : Int) :
    ∃ res k', (aesdRead ⟨count, none⟩ p).run false k = (.ok res, k') ∧ Keeps k' g ∧
      (k'.heap.denied = k.heap.denied → Got (g.messages.rtake 10) p res) := by
  obtain ⟨q, o, hh, ho, hq, hrest⟩ := hk
  obtain ⟨res, k', d, hrun, hgives, hs', hleaves, hden⟩ :=
    aesd_read_gives ⟨count, none⟩ p hh.toSound
  refine ⟨res, k', hrun, ⟨q, o, hleaves.healthy hh hs', ho, hq, hrest⟩, fun hsame => ?_⟩
  obtain rfl : d = 0 := by omega
  rw [← hq]
  cases hgives with
  | atEnd => exact .atEnd
  | copied h hn => exact .rest h hn
  | copyFault _ _ hf => cases hf

end Device

section Calls
variable {i : Nat} {fd : Fd} {w w' : World}

/-- What a call through `fd` does to the open files: it moves the position of that
one at most. -/
structure Through (fd : Fd) (w w' : World) : Prop where
  nextFd : w'.nextFd = w.nextFd
  outgoing : w'.outgoing = w.outgoing
  sent : w'.sent = w.sent
  position : ∀ n, fd ≠ some n → w'.position n = w.position n
  stays : ∀ n, w.position n ≠ none → w'.position n ≠ none

theorem through_kernel (w : World) (k : Kernel) (history : List (Nat × List UInt8)) :
    Through fd w { w with kernel := k, history := history } :=
  ⟨rfl, rfl, rfl, fun _ _ => rfl, fun _ h => h⟩

theorem through_moveTo (w : World) (n : Nat) (p : Int) (k : Kernel)
    (history : List (Nat × List UInt8)) :
    Through (some n) w { w.moveTo n p with kernel := k, history := history } where
  nextFd := rfl
  outgoing := rfl
  sent := rfl
  position m hm := Function.update_of_ne (fun he => hm (congrArg some he.symm)) _ _
  stays m hm := by
    simp only [World.moveTo, Function.update_apply]
    split
    · simp
    · exact hm

theorem eq_of_file {n : Nat} {p : Int} (h : w.file fd = some (n, p)) :
    fd = some n ∧ w.position n = some p := by
  cases fd with
  | none => cases h
  | some m =>
    simp only [World.file, Option.bind_some, Option.map_eq_some_iff, Prod.mk.injEq] at h
    obtain ⟨_, hp, rfl, rfl⟩ := h
    exact ⟨rfl, hp⟩

theorem through_read (fd : Fd) (count : Nat) (w : World) :
    Through fd w (World.sys.read fd count w).2 := by
  simp only [World.sys, World.read]
  split
  · exact through_kernel w _ _
  · rename_i n p hfile
    obtain ⟨rfl, _⟩ := eq_of_file hfile
    split
    · exact through_kernel w _ _
    · exact through_moveTo w n _ _ _

theorem through_write (fd : Fd) (bytes : List UInt8) (w : World) :
    Through fd w (World.sys.write fd bytes w).2 := by
  simp only [World.sys, World.write]
  split
  · exact through_kernel w _ _
  · rename_i n p hfile
    obtain ⟨rfl, _⟩ := eq_of_file hfile
    split
    · exact through_kernel w _ _
    · exact through_moveTo w n _ _ _

theorem through_ioctl (fd : Fd) (c o : Nat) (w : World) :
    Through fd w (World.sys.ioctl fd c o w).2 := by
  simp only [World.sys, World.ioctl]
  split
  · exact through_kernel w _ _
  · rename_i n p hfile
    obtain ⟨rfl, _⟩ := eq_of_file hfile
    split
    · exact through_kernel w _ _
    · exact through_moveTo w n _ _ _

theorem through_recv (fd : Fd) (skt : Nat) (w : World) :
    Through fd w (World.sys.recv skt w).2 :=
  ⟨rfl, rfl, rfl, fun _ _ => rfl, fun _ h => h⟩

/-- What a call of session `i` does to the open files, from a place to the next. -/
structure Effect (i : Nat) (place : Place) (w : World) (place' : Place) (w' : World) : Prop where
  nextFd : w.nextFd ≤ w'.nextFd
  outgoing : ∀ j, w'.outgoing j <:+ w.outgoing j
  sent : ∀ j, j ≠ i → w'.sent j = w.sent j
  elsewhere : ∀ n, n < w.nextFd → openFile place ≠ some n → w'.position n = w.position n
  file : ∀ n, openFile place' = some n →
    (openFile place = some n ∧ (w.position n ≠ none → w'.position n ≠ none)) ∨
    (n = w.nextFd ∧ n < w'.nextFd ∧ w'.position n ≠ none)

theorem Through.effect {place place' : Place} (h : Through (openFile place) w w')
    (hfile : openFile place' = openFile place ∨ openFile place' = none) :
    Effect i place w place' w' where
  nextFd := h.nextFd.ge
  outgoing j := by rw [h.outgoing]
  sent j _ := by rw [h.sent]
  elsewhere n _ hn := h.position n hn
  file n hn := by
    rcases hfile with he | he
    · exact Or.inl ⟨he ▸ hn, h.stays n⟩
    · cases he.symm.trans hn

theorem effect_open (place : Place) (next : Fd → Place) (hnext : ∀ fd, openFile (next fd) = fd) :
    Effect i place w (afterOpen next (World.sys.openDevice w).1) (World.sys.openDevice w).2 where
  nextFd := Nat.le_succ _
  outgoing _ := List.suffix_rfl
  sent _ _ := rfl
  elsewhere n hn _ := Function.update_of_ne hn.ne _ _
  file n hn := by
    obtain rfl : w.nextFd = n := Option.some.inj ((hnext (some w.nextFd)).symm.trans hn)
    refine Or.inr ⟨rfl, Nat.lt_succ_self _, ?_⟩
    simp [World.sys, World.openDevice, World.moveTo]

theorem effect_close (place place' : Place) (hplace : openFile place' = none) :
    Effect i place w place' (World.sys.closeDevice (openFile place) w).2 where
  nextFd := by cases openFile place <;> exact Nat.le_refl _
  outgoing _ := by cases openFile place <;> exact List.suffix_rfl
  sent _ _ := by cases openFile place <;> rfl
  elsewhere n _ hn := by
    cases hfd : openFile place with
    | none => rfl
    | some m =>
      refine Function.update_of_ne ?_ _ _
      rintro rfl
      exact hn hfd
  file n hn := by cases hplace.symm.trans hn

theorem openFile_afterRead {seek : Bool} {r : Except Fault (Result (Nat × List UInt8))}
    {place : Place} (h : AfterRead seek fd r place) :
    openFile place = fd ∨ openFile place = none := by
  cases h with
  | eintr | failed | atEnd | got => exact Or.inl rfl
  | crashed => exact Or.inr rfl

theorem openFile_afterSend (seek : Bool) (fd : Fd) (bytes : List UInt8)
    (r : Except Fault (Result Nat)) : openFile (afterSend seek fd bytes r) = fd ∨
      openFile (afterSend seek fd bytes r) = none := by
  unfold afterSend
  split
  · exact Or.inl rfl
  · exact Or.inl rfl
  · exact Or.inl rfl
  · exact Or.inr rfl

theorem effect_send (seek : Bool) (fd : Fd) (bytes : List UInt8) :
    Effect i (.pending seek fd bytes) w (afterSend seek fd bytes (World.sys.send i bytes w).1)
      (World.sys.send i bytes w).2 where
  nextFd := Nat.le_refl _
  outgoing j := by
    change Function.update w.outgoing i (World.depart bytes (w.outgoing i)).2.2 j <:+ _
    by_cases hj : j = i
    · subst hj
      rw [Function.update_self]
      exact World.depart_suffix bytes _
    · rw [Function.update_of_ne hj]
  sent j hj := Function.update_of_ne hj _ _
  elsewhere _ _ _ := rfl
  file n hn := by
    rcases openFile_afterSend seek fd bytes (World.sys.send i bytes w).1 with he | he
    · exact Or.inl ⟨he ▸ hn, fun h => h⟩
    · cases he.symm.trans hn

theorem act_effect {place place' : Place} {s s' : Shared World}
    (h : Act World.sys.shared i place s place' s') :
    Effect i place s.inner place' s'.inner := by
  cases h with
  | openFirst => exact effect_open _ _ (fun _ => rfl)
  | openLast => exact effect_open _ _ (fun _ => rfl)
  | @recv _ fd => exact Through.effect (through_recv fd i s.inner) (Or.inl rfl)
  | @ioctl _ fd c o => exact Through.effect (through_ioctl fd c o s.inner) (Or.inl rfl)
  | @write _ fd bytes =>
    refine Through.effect (through_write fd bytes s.inner) (Or.inl ?_)
    split <;> rfl
  | @read _ seek fd _ h =>
    exact Through.effect (through_read fd _ s.inner) (openFile_afterRead h)
  | send => exact effect_send _ _ _
  | complete => exact ⟨Nat.le_refl _, fun _ => List.suffix_rfl, fun _ _ => rfl, fun _ _ _ => rfl,
      fun n hn => Or.inl ⟨hn, fun h => h⟩⟩
  | @closeFirst _ fd => exact effect_close (.outside fd) _ rfl
  | @closeLast _ fd => exact effect_close (.marked fd) _ rfl
  | @closeSought _ fd => exact effect_close (.replied true fd) _ rfl

theorem Keeps.after_read {g : Groups UInt8} (hk : Keeps w.kernel g) (fd : Fd) (count : Nat) :
    Keeps (World.sys.read fd count w).2.kernel g := by
  simp only [World.sys, World.read]
  split
  · exact hk
  · rename_i n p _
    obtain ⟨res, k', hrun, hk', _⟩ := hk.reads count p
    rw [hrun]
    exact hk'

theorem Keeps.after_write {g : Groups UInt8} (hk : Keeps w.kernel g) (fd : Fd)
    {bytes : List UInt8} (hne : bytes ≠ [])
    (hquiet : refused (World.sys.write fd bytes w).2 = refused w) :
    Keeps (World.sys.write fd bytes w).2.kernel g ∨
      Keeps (World.sys.write fd bytes w).2.kernel (g.add newline (visible ⟨bytes, false⟩)) := by
  simp only [World.sys, World.write] at hquiet ⊢
  split
  · exact Or.inl hk
  · rename_i n p hfile
    rw [hfile] at hquiet
    dsimp only at hquiet
    have hwrite := hk.write ⟨⟨bytes, false⟩, p⟩ ⟨hne, rfl⟩
    cases hrun : (aesdWrite ⟨bytes, false⟩ p).run false w.kernel with
    | mk r k =>
      obtain ⟨ret, k', hrun', _, hk'⟩ := hwrite (by
        rw [hrun] at hquiet ⊢
        cases r <;> exact hquiet)
      obtain ⟨rfl, rfl⟩ := Prod.mk.inj (hrun.symm.trans hrun')
      exact Or.inr hk'

theorem kernel_ioctl (fd : Fd) (c o : Nat) (w : World) :
    (World.sys.ioctl fd c o w).2.kernel = w.kernel := by
  simp only [World.sys, World.ioctl]
  split
  · rfl
  · rename_i p _
    obtain ⟨res, hrun⟩ := aesd_ioctl_keeps false w.kernel w.past AESDCHAR_IOCSEEKTO (some (c, o)) p
    rw [hrun]

theorem kernel_close (fd : Fd) (w : World) : (World.sys.closeDevice fd w).2.kernel = w.kernel := by
  cases fd <;> rfl

theorem refused_le {place place' : Place} {s s' : Shared World}
    (h : Act World.sys.shared i place s place' s') : refused s.inner ≤ refused s'.inner := by
  cases h with
  | openFirst | openLast => exact sys_grows.openDevice s.inner
  | recv => exact sys_grows.recv i s.inner
  | ioctl => exact sys_grows.ioctl _ _ _ s.inner
  | write => exact sys_grows.write _ _ s.inner
  | read => exact sys_grows.read _ _ s.inner
  | send => exact sys_grows.send i _ s.inner
  | complete => exact sys_grows.complete i s.inner
  | closeFirst | closeLast | closeSought => exact sys_grows.closeDevice _ s.inner

/-- What a call does to the device: nothing, unless it is a write. -/
theorem act_keeps {place place' : Place} {s s' : Shared World} {g : Groups UInt8}
    (h : Act World.sys.shared i place s place' s') (hk : Keeps s.inner.kernel g)
    (hquiet : refused s'.inner = refused s.inner) :
    Keeps s'.inner.kernel g ∨ ∃ bytes failed, s'.calls = s.calls ++ [.write bytes failed] ∧
      Keeps s'.inner.kernel (g.add newline (visible ⟨bytes, false⟩)) := by
  cases h with
  | openFirst | openLast | recv | send | complete => exact Or.inl hk
  | @ioctl _ fd c o =>
    refine Or.inl ?_
    change Keeps (World.sys.ioctl fd c o s.inner).2.kernel g
    rwa [kernel_ioctl]
  | @closeFirst _ fd | @closeLast _ fd | @closeSought _ fd =>
    refine Or.inl ?_
    change Keeps (World.sys.closeDevice fd s.inner).2.kernel g
    rwa [kernel_close]
  | @read _ _ fd => exact Or.inl (hk.after_read fd _)
  | @write _ fd bytes hne =>
    exact (hk.after_write fd hne hquiet).imp_right (fun hk' => ⟨bytes, _, rfl, hk'⟩)

end Calls

/-- The threads of all clients, none of which has done anything yet. -/
def sessions (limit : Nat) (mem : Shared World) : System Nat Nat (Shared World) Fault :=
  ⟨mem, none, fun _ => false, fun i => some ⟨i, dataProcessor World.sys.shared limit i⟩⟩

/-- Each session has its own open file, and the device is in order. -/
structure Filed (stage : Nat → Place) (s : System Nat Nat (Shared World) Fault) : Prop where
  staged : System.Staged (course World.sys.shared) (fun place => ∃ seek, place = .finished seek)
    stage s
  own : System.Own s
  files : ∀ i n, openFile (stage i) = some n →
    n < s.mem.inner.nextFd ∧ s.mem.inner.position n ≠ none
  apart : ∀ i j n, openFile (stage i) = some n → openFile (stage j) = some n → i = j
  keeps : refused s.mem.inner = 0 → ∃ g, Keeps s.mem.inner.kernel g

section Sessions
variable {limit : Nat} {stage : Nat → Place} {s s' : System Nat Nat (Shared World) Fault}
  {e : Event Nat Nat}

theorem filed_sessions {grant : Nat → Bool} {k₀ : Kernel} (hb : Booted grant k₀)
    (past : Nat → Nat) (incoming : Nat → List (Result (List UInt8)))
    (outgoing : Nat → List (Result Nat)) (flags : Nat → Nat) :
    Filed (fun _ => .start)
      (sessions limit ⟨World.start k₀ past incoming outgoing, flags, []⟩) where
  staged i t ht := by
    obtain rfl := Option.some.inj ht
    exact course_dataProcessor World.sys.shared limit i
  own i t ht := by
    obtain rfl := Option.some.inj ht
    rfl
  files i n hn := by cases hn
  apart i j n hn := by cases hn
  keeps _ := ⟨_, hb.keeps⟩

/-- A step is a call on the course of its session, or is about the lock. -/
theorem act_of_moves {i : Nat} {place place' : Place} {mem mem' : Shared World}
    (hkind : e.kind ≠ .invoke) (hcall : e.call = i)
    (h : System.Moves (course World.sys.shared) (fun place => ∃ seek, place = .finished seek)
      .start e place mem place' mem') :
    Act World.sys.shared i place mem place' mem' ∨
      (mem' = mem ∧ openFile place' = openFile place ∧
        (underWay place = true → place' = place)) := by
  subst hcall
  unfold System.Moves at h
  cases hk : e.kind with
  | invoke => exact absurd hk hkind
  | acquire =>
    simp only [hk] at h
    obtain ⟨⟨fd, rfl, rfl⟩, rfl⟩ := h
    exact Or.inr ⟨rfl, rfl, by simp [underWay]⟩
  | interrupt =>
    simp only [hk] at h
    obtain ⟨rfl, rfl⟩ := h
    exact Or.inr ⟨rfl, rfl, fun _ => rfl⟩
  | unlock =>
    simp only [hk] at h
    obtain ⟨⟨fd, ⟨rfl, rfl⟩ | ⟨rfl, rfl⟩⟩, rfl⟩ := h
    · exact Or.inr ⟨rfl, rfl, by simp [underWay]⟩
    · exact Or.inr ⟨rfl, rfl, by simp [underWay]⟩
  | act =>
    simp only [hk] at h
    exact Or.inl h
  | finish =>
    simp only [hk] at h
    obtain ⟨_, rfl, rfl⟩ := h
    exact Or.inr ⟨rfl, rfl, fun _ => rfl⟩

theorem Filed.step (hs : Filed stage s) (hkind : e.kind ≠ .invoke)
    (h : System.Step (dataProcessor World.sys.shared limit) s e s') :
    ∃ place', Filed (Function.update stage e.task place') s' ∧
      Effect e.task (stage e.task) s.mem.inner place' s'.mem.inner ∧
      (Act World.sys.shared e.task (stage e.task) s.mem place' s'.mem ∨
        (s'.mem = s.mem ∧ (underWay (stage e.task) = true → place' = stage e.task))) := by
  obtain ⟨place', hmoves, hstaged⟩ := hs.staged.step h (fun hi => absurd hi hkind)
  have hcall := hs.own.call_eq h hkind
  have hact := act_of_moves hkind hcall hmoves
  have heffect : Effect e.task (stage e.task) s.mem.inner place' s'.mem.inner := by
    rcases hact with hact | ⟨hmem, hfile, _⟩
    · exact act_effect hact
    · rw [hmem]
      exact ⟨Nat.le_refl _, fun _ => List.suffix_rfl, fun _ _ => rfl, fun _ _ _ => rfl,
        fun n hn => Or.inl ⟨hfile ▸ hn, fun h => h⟩⟩
  -- nobody else has the file that the session has now
  have hothers : ∀ j n, j ≠ e.task → openFile place' = some n → openFile (stage j) ≠ some n := by
    intro j n hj hn hn'
    rcases heffect.file n hn with ⟨hbefore, _⟩ | ⟨rfl, _⟩
    · exact hj (hs.apart _ _ n hn' hbefore)
    · exact Nat.lt_irrefl _ (hs.files j _ hn').1
  refine ⟨place', ⟨hstaged, hs.own.step h hcall, ?_, ?_, ?_⟩, heffect,
    hact.imp_right (fun ⟨hmem, _, hplace⟩ => ⟨hmem, hplace⟩)⟩
  · intro j n hn
    by_cases hj : j = e.task
    · subst hj
      rw [Function.update_self] at hn
      rcases heffect.file n hn with ⟨hbefore, hstays⟩ | ⟨_, hlt, hopen⟩
      · obtain ⟨hlt, hopen⟩ := hs.files _ n hbefore
        exact ⟨Nat.lt_of_lt_of_le hlt heffect.nextFd, hstays hopen⟩
      · exact ⟨hlt, hopen⟩
    · rw [Function.update_of_ne hj] at hn
      obtain ⟨hlt, hopen⟩ := hs.files j n hn
      rw [heffect.elsewhere n hlt (fun hn' => hj (hs.apart _ _ n hn hn'))]
      exact ⟨Nat.lt_of_lt_of_le hlt heffect.nextFd, hopen⟩
  · intro i j n hi hj
    by_cases hei : i = e.task <;> by_cases hej : j = e.task
    · rw [hei, hej]
    · subst hei
      rw [Function.update_self] at hi
      rw [Function.update_of_ne hej] at hj
      exact absurd hj (hothers j n hej hi)
    · subst hej
      rw [Function.update_self] at hj
      rw [Function.update_of_ne hei] at hi
      exact absurd hi (hothers i n hei hj)
    · rw [Function.update_of_ne hei] at hi
      rw [Function.update_of_ne hej] at hj
      exact hs.apart i j n hi hj
  · intro hquiet
    rcases hact with hact | ⟨hmem, _⟩
    · have hle := refused_le hact
      have hbefore : refused s.mem.inner = 0 := by omega
      obtain ⟨g, hk⟩ := hs.keeps hbefore
      rcases act_keeps hact hk (by omega) with hk' | ⟨_, _, _, hk'⟩
      · exact ⟨g, hk'⟩
      · exact ⟨_, hk'⟩
    · rw [hmem] at hquiet ⊢
      exact hs.keeps hquiet

end Sessions

end Aesd.Proofs
