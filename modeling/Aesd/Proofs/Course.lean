import Aesd.Base.Stages
import Aesd.Server.Trace

namespace Aesd.Proofs
open Base Server
open Base.Rules (follows_pure follows_ofExcept follows_call follows_lock follows_release)

/-- Where a session stands between two of its steps. `inside` it has taken the lock
for its next command, which has been a seek command if it is `sought`. Its reply is
sent in parts; `seek` says what it is a reply to. -/
inductive Place where
  | start
  | outside (fd : Fd)
  | inside (fd : Fd)
  | sought (fd : Fd)
  | between
  | replying (seek : Bool) (fd : Fd)
  | pending (seek : Bool) (fd : Fd) (bytes : List UInt8)
  | replied (seek : Bool) (fd : Fd)
  | marked (fd : Fd)
  | finished (seek : Bool)
  | crashed

section Places
variable {σ : Type}

def afterOpen (place : Fd → Place) : Except Fault Fd → Place
  | .ok fd => place fd
  | .error _ => .crashed

/-- What is sent after a read is the front of the buffer, with `stored` at its start. -/
inductive AfterRead (seek : Bool) (fd : Fd) :
    Except Fault (Result (Nat × List UInt8)) → Place → Prop
  | eintr : AfterRead seek fd (.ok .eintr) (.replying seek fd)
  | failed : AfterRead seek fd (.ok .failed) (.replied seek fd)
  | atEnd {stored : List UInt8} : AfterRead seek fd (.ok (.done (0, stored))) (.replied seek fd)
  | got {n : Nat} {stored rest : List UInt8} (hn : n ≠ 0) :
      AfterRead seek fd (.ok (.done (n, stored))) (.pending seek fd ((stored ++ rest).take n))
  | crashed {r : Except Fault (Result (Nat × List UInt8))} : AfterRead seek fd r .crashed

def afterSend (seek : Bool) (fd : Fd) (bytes : List UInt8) : Except Fault (Result Nat) → Place
  | .ok (.done _) => .replying seek fd
  | .ok .eintr => .pending seek fd bytes
  | .ok .failed => .replied seek fd
  | .error _ => .crashed

/-- The system calls that session `i` can make at a place, and where they lead. A
write that failed leaves it where it was before it took the lock. -/
inductive Act (sys : Sys σ) (i : Nat) : Place → σ → Place → σ → Prop
  | openFirst {s : σ} :
      Act sys i .start s (afterOpen .outside (sys.openDevice s).1) (sys.openDevice s).2
  | recv {s : σ} {fd : Fd} : Act sys i (.outside fd) s (.outside fd) (sys.recv i s).2
  | ioctl {s : σ} {fd : Fd} {c o : Nat} :
      Act sys i (.inside fd) s (.sought fd) (sys.ioctl fd c o s).2
  | write {s : σ} {fd : Fd} {bytes : List UInt8} (hne : bytes ≠ []) :
      Act sys i (.inside fd) s
        (if refusedWrite (sys.write fd bytes s).1 then .outside fd else .inside fd)
        (sys.write fd bytes s).2
  | closeFirst {s : σ} {fd : Fd} : Act sys i (.outside fd) s .between (sys.closeDevice fd s).2
  | openLast {s : σ} :
      Act sys i .between s (afterOpen (.replying false) (sys.openDevice s).1) (sys.openDevice s).2
  | read {s : σ} {seek : Bool} {fd : Fd} {place : Place}
      (h : AfterRead seek fd (sys.read fd READ_WRITE_SIZE s).1 place) :
      Act sys i (.replying seek fd) s place (sys.read fd READ_WRITE_SIZE s).2
  | send {s : σ} {seek : Bool} {fd : Fd} {bytes : List UInt8} :
      Act sys i (.pending seek fd bytes) s (afterSend seek fd bytes (sys.send i bytes s).1)
        (sys.send i bytes s).2
  | complete {s : σ} {fd : Fd} : Act sys i (.replied false fd) s (.marked fd) (sys.complete i s).2
  | closeLast {s : σ} {fd : Fd} :
      Act sys i (.marked fd) s (.finished false) (sys.closeDevice fd s).2
  | closeSought {s : σ} {fd : Fd} :
      Act sys i (.replied true fd) s (.finished true) (sys.closeDevice fd s).2

/-- The course that session `i` takes. -/
def course (sys : Sys σ) (i : Nat) : Rules σ Place :=
  { lock := fun place place' => ∃ fd, place = .outside fd ∧ place' = .inside fd
    unlock := fun place place' => ∃ fd, (place = .inside fd ∧ place' = .outside fd) ∨
      (place = .sought fd ∧ place' = .replying true fd)
    act := Act sys i }

end Places

section Session
variable {σ : Type} {sys : Sys σ} {i : Nat} {fd : Fd} {seek : Bool}

theorem course_sendLoop (bytes : List UInt8) (fuel : Nat) :
    (course sys i).Follows (fun place ok => place =
        if ok = true then .replying seek fd else .replied seek fd)
      (.pending seek fd bytes) (sendLoop sys i bytes fuel) := by
  induction fuel with
  | zero => trivial
  | succ fuel ih =>
    have hsend : (course sys i).Follows (fun place r => place = afterSend seek fd bytes (.ok r))
        (.pending seek fd bytes) (Code.call (sys.send i bytes)) :=
      follows_call (fun s => ⟨_, .send, fun r hr => by rw [hr]⟩)
    refine hsend.bind (fun place r hplace => ?_)
    subst hplace
    cases r with
    | done => exact follows_pure rfl
    | eintr => exact ih
    | failed => exact follows_pure rfl

/-- Where a read leads to with the given buffer. -/
def readPlace (seek : Bool) (fd : Fd) (buf : List UInt8) :
    Except Fault (Result (Nat × List UInt8)) → Place
  | .ok .eintr => .replying seek fd
  | .ok .failed => .replied seek fd
  | .error _ => .crashed
  | .ok (.done (n, stored)) =>
    match fill buf stored with
    | .error _ => .crashed
    | .ok buf => if n = 0 then .replied seek fd else
      match front buf n with
      | .error _ => .crashed
      | .ok bytes => .pending seek fd bytes

theorem afterRead_readPlace (buf : List UInt8) (r : Except Fault (Result (Nat × List UInt8))) :
    AfterRead seek fd r (readPlace seek fd buf r) := by
  unfold readPlace
  split
  · exact .eintr
  · exact .failed
  · exact .crashed
  · rename_i n stored
    split
    · exact .crashed
    · rename_i buf' hfill
      split
      · rename_i hn
        rw [hn]
        exact .atEnd
      · rename_i hn
        split
        · exact .crashed
        · rename_i bytes hfront
          rw [eq_of_front hfront, eq_of_fill hfill]
          exact .got hn

theorem course_readLoop (limit fuel : Nat) (buf : List UInt8) :
    (course sys i).Follows (fun place _ => place = .replied seek fd) (.replying seek fd)
      (readLoop sys i fd limit fuel buf) := by
  induction fuel generalizing buf with
  | zero => trivial
  | succ fuel ih =>
    have hread : (course sys i).Follows (fun place r => place = readPlace seek fd buf (.ok r))
        (.replying seek fd) (Code.call (sys.read fd READ_WRITE_SIZE)) :=
      follows_call (fun s => ⟨_, .read (afterRead_readPlace buf _), fun r hr => by rw [hr]⟩)
    refine hread.bind (fun place r hplace => ?_)
    subst hplace
    cases r with
    | eintr => exact ih buf
    | failed => exact follows_pure rfl
    | done res =>
      obtain ⟨n, stored⟩ := res
      refine follows_ofExcept (fun buf' hfill => ?_)
      simp only [readPlace, hfill]
      split
      · exact follows_pure rfl
      · refine follows_ofExcept (fun bytes hfront => ?_)
        rw [hfront]
        refine (course_sendLoop bytes limit).bind (fun place ok hplace => ?_)
        subst hplace
        split
        · exact ih buf'
        · exact follows_pure rfl

/-- A chunk leads back to where it was received, or to the end of a reply. -/
theorem course_putChunk (limit : Nat) {buf : List UInt8} {n : Nat} (hne : buf.take n ≠ [])
    (fuel : Nat) :
    (course sys i).Follows (fun place ret => (ret = none ∧ place = .outside fd) ∨
        (ret = some 1 ∧ place = .replied true fd))
      (.outside fd) (putChunk sys i fd limit buf n fuel) := by
  induction fuel with
  | zero => trivial
  | succ fuel ih =>
    refine follows_lock ⟨fd, rfl, rfl⟩ ?_ ih
    simp only [Bool.false_eq_true, ↓reduceIte]
    split
    · refine follows_ofExcept (fun args _ => ?_)
      have hioctl : (course sys i).Follows (fun place _ => place = .sought fd) (.inside fd)
          (Code.call (sys.ioctl fd args.1 args.2)) :=
        follows_call (fun s => ⟨_, .ioctl, fun _ _ => rfl⟩)
      refine hioctl.bind (fun place _ hplace => ?_)
      subst hplace
      refine follows_release ⟨fd, Or.inr ⟨rfl, rfl⟩⟩ ?_
      exact (course_readLoop limit limit blankBuffer).bind
        (fun place _ hplace => follows_pure (Or.inr ⟨rfl, hplace⟩))
    · have hwrite : (course sys i).Follows
          (fun place r => place = if refusedWrite (.ok r) then .outside fd else .inside fd)
          (.inside fd) (Code.call (sys.write fd (buf.take n))) :=
        follows_call (fun s => ⟨_, .write hne, fun r hr => by rw [hr]⟩)
      refine hwrite.bind (fun place r hplace => ?_)
      subst hplace
      cases r with
      | eintr => exact ih
      | failed => exact follows_pure (Or.inl ⟨rfl, rfl⟩)
      | done =>
        exact follows_release ⟨fd, Or.inl ⟨rfl, rfl⟩⟩ (follows_pure (Or.inl ⟨rfl, rfl⟩))

theorem course_receiveLoop (limit fuel : Nat) (buf : List UInt8) :
    (course sys i).Follows (fun place ret => (ret = 0 ∧ place = .outside fd) ∨
        (ret = 1 ∧ place = .replied true fd))
      (.outside fd) (receiveLoop sys i fd limit fuel buf) := by
  induction fuel generalizing buf with
  | zero => trivial
  | succ fuel ih =>
    have hrecv : (course sys i).Follows (fun place _ => place = .outside fd) (.outside fd)
        (Code.call (sys.recv i)) := follows_call (fun s => ⟨_, .recv, fun _ _ => rfl⟩)
    refine hrecv.bind (fun place r hplace => ?_)
    subst hplace
    cases r with
    | eintr => exact ih buf
    | failed => exact follows_pure (Or.inl ⟨rfl, rfl⟩)
    | done chunk =>
      cases chunk with
      | nil => exact ih buf
      | cons b bs =>
        refine follows_ofExcept (fun buf' hfill => follows_ofExcept (fun eop _ => ?_))
        have hne : buf'.take (b :: bs).length ≠ [] := by simp [eq_of_fill hfill]
        refine (course_putChunk limit hne limit).bind (fun place ret hplace => ?_)
        rcases hplace with ⟨rfl, rfl⟩ | ⟨rfl, rfl⟩
        · dsimp only
          split
          · exact follows_pure (Or.inl ⟨rfl, rfl⟩)
          · exact ih buf'
        · exact follows_pure (Or.inr ⟨rfl, rfl⟩)

/-- Every session takes its course. -/
theorem course_dataProcessor (sys : Sys σ) (limit i : Nat) :
    (course sys i).Follows (fun place _ => ∃ seek, place = .finished seek) .start
      (dataProcessor sys limit i) := by
  have hopen : (course sys i).Follows (fun place fd => place = .outside fd) .start
      (Code.call sys.openDevice) :=
    follows_call (fun s => ⟨_, .openFirst, fun fd hfd => by rw [hfd]; rfl⟩)
  refine hopen.bind (fun place fd hplace => ?_)
  subst hplace
  refine (course_receiveLoop limit limit blankBuffer).bind (fun place ret hplace => ?_)
  rcases hplace with ⟨rfl, rfl⟩ | ⟨rfl, rfl⟩
  · have hclose : (course sys i).Follows (fun place _ => place = .between) (.outside fd)
        (Code.call (sys.closeDevice fd)) := follows_call (fun s => ⟨_, .closeFirst, fun _ _ => rfl⟩)
    have hagain : (course sys i).Follows (fun place fd => place = .replying false fd) .between
        (Code.call sys.openDevice) :=
      follows_call (fun s => ⟨_, .openLast, fun fd hfd => by rw [hfd]; rfl⟩)
    simp only [↓reduceIte]
    refine hclose.bind (fun place _ hplace => ?_)
    subst hplace
    refine hagain.bind (fun place fd' hplace => ?_)
    subst hplace
    refine (course_readLoop limit limit blankBuffer).bind (fun place _ hplace => ?_)
    subst hplace
    have hcomplete : (course sys i).Follows (fun place _ => place = .marked fd')
        (.replied false fd') (Code.call (sys.complete i)) :=
      follows_call (fun s => ⟨_, .complete, fun _ _ => rfl⟩)
    refine hcomplete.bind (fun place _ hplace => ?_)
    subst hplace
    exact follows_call (fun s => ⟨_, .closeLast, fun _ _ => ⟨false, rfl⟩⟩)
  · exact follows_call (fun s => ⟨_, .closeSought, fun _ _ => ⟨true, rfl⟩⟩)

end Session

end Aesd.Proofs
