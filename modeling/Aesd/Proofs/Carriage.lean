import Aesd.Proofs.Course

namespace Aesd.Proofs
open Base Server CString
open Base.Rules (follows_pure follows_ofExcept follows_call follows_lock follows_release)
open Driver (newline)

/-- What a session has of what its client sends: nothing so far, a chunk that is to
go to the device, or one that is there. It is `lost` when a call failed, or when the
chunk was a command. -/
inductive Parcel where
  | awaited
  | taken (chunk : List UInt8)
  | stored
  | lost

section Rules
variable {σ : Type}

def afterRecv (parcel : Parcel) : Except Fault (Result (List UInt8)) → Parcel
  | .ok (.done []) => parcel
  | .ok (.done (b :: bs)) => .taken (b :: bs)
  | .ok .eintr => parcel
  | .ok .failed => .lost
  | .error _ => .lost

def afterWrite (chunk : List UInt8) : Except Fault (Result Nat) → Parcel
  | .ok (.done _) => .stored
  | .ok .eintr => .taken chunk
  | .ok .failed => .lost
  | .error _ => .stored

/-- What session `i` does with it. Only what was received is written, and the device
is not closed before. -/
def Carries (sys : Sys σ) (i : Nat) (parcel : Parcel) (m : Shared σ) (parcel' : Parcel)
    (m' : Shared σ) : Prop :=
  ∃ c, m'.calls = m.calls ++ [c] ∧ match c with
    | .recv _ => parcel' = afterRecv parcel (sys.recv i m.inner).1
    | .write bytes failed => parcel = .taken bytes ∧ (failed = false → parcel' = .stored)
    | .ioctl _ _ => ∃ chunk rest, parcel = .taken chunk ∧ isSeek (chunk ++ rest) = true
    | .closeDevice => (parcel = .stored ∨ parcel = .lost) ∧ parcel' = parcel
    | _ => parcel' = parcel

def carriage (sys : Sys σ) (i : Nat) : Rules (Shared σ) Parcel :=
  { lock := fun parcel parcel' => parcel' = parcel
    unlock := fun parcel parcel' => parcel' = parcel
    act := Carries sys i }

end Rules

section Session
variable {σ : Type} {sys : Sys σ} {i : Nat} {fd : Fd} {parcel : Parcel}

/-- The places of a reply and of what comes after it. -/
def afterwards : Place → Bool
  | .replying _ _ => true
  | .pending _ _ _ => true
  | .replied _ _ => true
  | .marked _ => true
  | .finished _ => true
  | .crashed => true
  | _ => false

theorem afterwards_afterRead {seek : Bool} {r : Except Fault (Result (Nat × List UInt8))}
    {place : Place} (h : AfterRead seek fd r place) : afterwards place = true := by
  cases h <;> rfl

theorem afterwards_afterSend (seek : Bool) (bytes : List UInt8) (r : Except Fault (Result Nat)) :
    afterwards (afterSend seek fd bytes r) = true := by
  unfold afterSend
  split <;> rfl

/-- A reply has nothing to do with it. -/
theorem carriage_readLoop (hparcel : parcel = .stored ∨ parcel = .lost) (limit fuel : Nat)
    (buf : List UInt8) :
    (carriage sys i).Follows (fun parcel' _ => parcel' = parcel) parcel
      (readLoop sys.shared i fd limit fuel buf) := by
  have hcourse : (course sys.shared i).Follows (fun place _ => place = .replied false fd)
      (.replying false fd) (readLoop sys.shared i fd limit fuel buf) :=
    course_readLoop limit fuel buf
  refine hcourse.simulate (fun place parcel' => afterwards place = true ∧ parcel' = parcel)
    ?_ ?_ ?_ (fun _ _ _ hrel _ => hrel.2) ⟨rfl, rfl⟩
  · intro place _ place' hrel hlock
    obtain ⟨fd, rfl, _⟩ := hlock
    cases hrel.1
  · intro place _ place' hrel hunlock
    obtain ⟨fd, ⟨rfl, _⟩ | ⟨rfl, _⟩⟩ := hunlock
    · cases hrel.1
    · cases hrel.1
  · intro place parcel' place' m m' hrel hact
    obtain ⟨hplace, hsame⟩ := hrel
    subst hsame
    cases hact with
    | openFirst | recv | ioctl | write | closeFirst | openLast => cases hplace
    | read h => exact ⟨_, ⟨.read, rfl, rfl⟩, afterwards_afterRead h, rfl⟩
    | send => exact ⟨_, ⟨.send i _, rfl, rfl⟩, afterwards_afterSend _ _ _, rfl⟩
    | complete => exact ⟨_, ⟨.complete i, rfl, rfl⟩, rfl, rfl⟩
    | closeLast | closeSought => exact ⟨_, ⟨.closeDevice, rfl, hparcel, rfl⟩, rfl, rfl⟩

/-- A chunk goes to the device as it was received, or not at all. -/
theorem carriage_putChunk (limit : Nat) (chunk rest : List UInt8) (fuel : Nat) :
    (carriage sys i).Follows (fun parcel _ => parcel = .stored ∨ parcel = .lost) (.taken chunk)
      (putChunk sys.shared i fd limit (chunk ++ rest) chunk.length fuel) := by
  induction fuel with
  | zero => trivial
  | succ fuel ih =>
    refine follows_lock rfl ?_ ih
    simp only [Bool.false_eq_true, ↓reduceIte]
    split
    · rename_i hseek
      refine follows_ofExcept (fun args _ => ?_)
      have hioctl : (carriage sys i).Follows (fun parcel _ => parcel = .lost) (.taken chunk)
          (Code.call (sys.shared.ioctl fd args.1 args.2)) :=
        follows_call (fun m => ⟨.lost, ⟨_, rfl, chunk, rest, rfl, hseek⟩, fun _ _ => rfl⟩)
      refine hioctl.bind (fun parcel _ hparcel => ?_)
      subst hparcel
      refine follows_release rfl ?_
      refine (carriage_readLoop (Or.inr rfl) limit limit blankBuffer).bind
        (fun parcel _ hparcel => ?_)
      exact follows_pure (Or.inr hparcel)
    · have hwrite : (carriage sys i).Follows (fun parcel r => parcel = afterWrite chunk (.ok r))
          (.taken chunk)
          (Code.call (sys.shared.write fd ((chunk ++ rest).take chunk.length))) := by
        refine follows_call (fun m => ⟨afterWrite chunk (sys.write fd chunk m.inner).1, ?_, ?_⟩)
        · rw [List.take_left]
          refine ⟨_, rfl, rfl, fun hfailed => ?_⟩
          cases hr : (sys.write fd chunk m.inner).1 with
          | error e => rfl
          | ok r =>
            cases r with
            | done => rfl
            | eintr | failed =>
              rw [hr] at hfailed
              cases hfailed
        · intro r hr
          rw [List.take_left] at hr
          exact congrArg (afterWrite chunk) hr
      refine hwrite.bind (fun parcel r hparcel => ?_)
      subst hparcel
      cases r with
      | eintr => exact ih
      | failed => exact follows_pure (Or.inr rfl)
      | done => exact follows_release rfl (follows_pure (Or.inl rfl))

theorem carriage_receiveLoop (limit fuel : Nat) (buf : List UInt8) :
    (carriage sys i).Follows (fun parcel _ => parcel = .stored ∨ parcel = .lost) parcel
      (receiveLoop sys.shared i fd limit fuel buf) := by
  induction fuel generalizing buf parcel with
  | zero => trivial
  | succ fuel ih =>
    have hrecv : (carriage sys i).Follows (fun parcel' r => parcel' = afterRecv parcel (.ok r))
        parcel (Code.call (sys.shared.recv i)) :=
      follows_call (fun m => ⟨_, ⟨_, rfl, rfl⟩, fun r hr => congrArg (afterRecv parcel) hr⟩)
    refine hrecv.bind (fun parcel' r hparcel => ?_)
    subst hparcel
    cases r with
    | eintr => exact ih buf
    | failed => exact follows_pure (Or.inr rfl)
    | done chunk =>
      cases chunk with
      | nil => exact ih buf
      | cons b bs =>
        refine follows_ofExcept (fun buf' hfill => follows_ofExcept (fun eop _ => ?_))
        rw [eq_of_fill hfill]
        refine (carriage_putChunk limit (b :: bs) _ limit).bind (fun parcel' ret hparcel => ?_)
        cases ret with
        | some ret => exact follows_pure hparcel
        | none =>
          dsimp only
          split
          · exact follows_pure hparcel
          · exact ih _

theorem carriage_dataProcessor (sys : Sys σ) (limit i : Nat) :
    (carriage sys i).Follows (fun _ _ => True) .awaited (dataProcessor sys.shared limit i) := by
  have hopen : ∀ parcel, (carriage sys i).Follows (fun parcel' _ => parcel' = parcel) parcel
      (Code.call sys.shared.openDevice) :=
    fun parcel => follows_call (fun m => ⟨parcel, ⟨.openDevice, rfl, rfl⟩, fun _ _ => rfl⟩)
  have hclose : ∀ parcel fd, parcel = .stored ∨ parcel = .lost →
      (carriage sys i).Follows (fun parcel' _ => parcel' = parcel) parcel
        (Code.call (sys.shared.closeDevice fd)) :=
    fun parcel fd hparcel =>
      follows_call (fun m => ⟨parcel, ⟨.closeDevice, rfl, hparcel, rfl⟩, fun _ _ => rfl⟩)
  refine (hopen .awaited).bind (fun parcel fd hparcel => ?_)
  refine (carriage_receiveLoop limit limit blankBuffer).bind (fun parcel' ret hended => ?_)
  split
  · refine (hclose parcel' fd hended).bind (fun _ _ hsame => ?_)
    subst hsame
    refine (hopen _).bind (fun _ fd' hsame => ?_)
    subst hsame
    refine (carriage_readLoop hended limit limit blankBuffer).bind (fun _ _ hsame => ?_)
    subst hsame
    have hcomplete : ∀ parcel, (carriage sys i).Follows (fun parcel' _ => parcel' = parcel) parcel
        (Code.call (sys.shared.complete i)) :=
      fun parcel => follows_call (fun m => ⟨parcel, ⟨.complete i, rfl, rfl⟩, fun _ _ => rfl⟩)
    refine (hcomplete _).bind (fun _ _ hsame => ?_)
    subst hsame
    exact (hclose _ fd' hended).imp (fun _ _ _ => trivial)
  · exact (hclose parcel' fd hended).imp (fun _ _ _ => trivial)

end Session

end Aesd.Proofs
