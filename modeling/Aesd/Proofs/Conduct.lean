import Aesd.Proofs.Course

namespace Aesd.Proofs
open Base Server

/-- What a session has of the lock. After a failed write it is `kept`. -/
inductive Grip where
  | free
  | held
  | kept
  deriving DecidableEq

/-- How far a session has come: whether it has issued a seek command, and whether
it has marked itself as complete. -/
structure Progress where
  grip : Grip
  sought : Bool
  complete : Bool

namespace Progress

def first : Progress := ⟨.free, false, false⟩

def taken (st : Progress) : Progress :=
  if st.grip = .free then { st with grip := .held } else st

def given (st : Progress) : Progress :=
  if st.grip = .held then { st with grip := .free } else st

def next (st : Progress) : Call → Progress
  | .write _ true => { st with grip := .kept }
  | .ioctl _ _ => { st with sought := true }
  | .complete _ => { st with complete := true }
  | _ => st

/-- The calls that session `i` may make: a command to the device with the lock,
anything else without it, and one note of its own end. -/
def May (i : Nat) (st : Progress) : Call → Prop
  | .write _ _ => st.grip ≠ .free
  | .ioctl _ _ => st.grip ≠ .free
  | .complete j => j = i ∧ st.grip ≠ .held ∧ st.complete = false ∧ st.sought = false
  | _ => st.grip ≠ .held

/-- The session is over: it has either marked itself as complete or issued a seek
command. -/
def Over (st : Progress) : Prop :=
  st.grip ≠ .held ∧ (st.complete = true ↔ st.sought = false)

end Progress

/-- The flags after a call. -/
def flagsAfter (flags : Nat → Nat) : Call → Nat → Nat
  | .complete i => Function.update flags i 1
  | _ => flags

/-- What a call does to what the threads share. -/
structure Makes {σ : Type} (c : Call) (s s' : Shared σ) : Prop where
  calls : s'.calls = s.calls ++ [c]
  flags : s'.threadComplete = flagsAfter s.threadComplete c

/-- The rules of session `i`. -/
def conduct {σ : Type} (i : Nat) : Rules (Shared σ) Progress :=
  { lock := fun st st' => st.grip ≠ .held ∧ st' = st.taken
    unlock := fun st st' => st.grip ≠ .free ∧ st' = st.given
    act := fun st s st' s' => ∃ c, Makes c s s' ∧ st.May i c ∧ st' = st.next c }

namespace Progress
variable {st : Progress}

theorem grip_taken (st : Progress) : st.taken.grip ≠ .free := by
  unfold taken
  split
  · simp
  · assumption

theorem grip_given (st : Progress) : st.given.grip ≠ .held := by
  unfold given
  split
  · simp
  · assumption

@[simp] theorem complete_taken (st : Progress) : st.taken.complete = st.complete := by
  unfold taken
  split <;> rfl

@[simp] theorem sought_taken (st : Progress) : st.taken.sought = st.sought := by
  unfold taken
  split <;> rfl

@[simp] theorem complete_given (st : Progress) : st.given.complete = st.complete := by
  unfold given
  split <;> rfl

@[simp] theorem sought_given (st : Progress) : st.given.sought = st.sought := by
  unfold given
  split <;> rfl

end Progress

/-- How a session has conducted itself when it stands at a place. -/
def Suits : Place → Progress → Prop
  | .start, st => st = Progress.first
  | .outside _, st => st.grip ≠ .held ∧ st.sought = false ∧ st.complete = false
  | .inside _, st => st.grip ≠ .free ∧ st.sought = false ∧ st.complete = false
  | .sought _, st => st.grip ≠ .free ∧ st.sought = true ∧ st.complete = false
  | .between, st => st.grip ≠ .held ∧ st.sought = false ∧ st.complete = false
  | .replying seek _, st => st.grip ≠ .held ∧ st.sought = seek ∧ st.complete = false
  | .pending seek _ _, st => st.grip ≠ .held ∧ st.sought = seek ∧ st.complete = false
  | .replied seek _, st => st.grip ≠ .held ∧ st.sought = seek ∧ st.complete = false
  | .marked _, st => st.grip ≠ .held ∧ st.sought = false ∧ st.complete = true
  | .finished seek, st => st.grip ≠ .held ∧ st.sought = seek ∧ st.complete = !seek
  | .crashed, _ => True

section Course
variable {σ : Type} {sys : Sys σ} {i : Nat} {place place' : Place} {st : Progress}

theorem suits_lock (hst : Suits place st) (h : (course sys.shared i).lock place place') :
    ∃ st', (conduct i : Rules (Shared σ) Progress).lock st st' ∧ Suits place' st' := by
  obtain ⟨fd, rfl, rfl⟩ := h
  obtain ⟨hgrip, hsought, hcomplete⟩ := hst
  exact ⟨_, ⟨hgrip, rfl⟩, st.grip_taken, by simpa using hsought, by simpa using hcomplete⟩

theorem suits_unlock (hst : Suits place st) (h : (course sys.shared i).unlock place place') :
    ∃ st', (conduct i : Rules (Shared σ) Progress).unlock st st' ∧ Suits place' st' := by
  obtain ⟨fd, ⟨rfl, rfl⟩ | ⟨rfl, rfl⟩⟩ := h
  all_goals
    obtain ⟨hgrip, hsought, hcomplete⟩ := hst
    exact ⟨_, ⟨hgrip, rfl⟩, st.grip_given, by simpa using hsought, by simpa using hcomplete⟩

theorem suits_afterRead {seek : Bool} {fd : Fd} {r : Except Fault (Result (Nat × List UInt8))}
    (h : AfterRead seek fd r place) (hst : Suits (.replying seek fd) st) : Suits place st := by
  cases h with
  | eintr | failed | atEnd | got => exact hst
  | crashed => trivial

theorem suits_afterSend {seek : Bool} {fd : Fd} {bytes : List UInt8}
    (hst : Suits (.pending seek fd bytes) st) (r : Except Fault (Result Nat)) :
    Suits (afterSend seek fd bytes r) st := by
  unfold afterSend
  split
  · exact hst
  · exact hst
  · exact hst
  · trivial

theorem suits_afterWrite {fd : Fd} (bytes : List UInt8) (hst : Suits (.inside fd) st)
    (failed : Bool) :
    Suits (if failed then .outside fd else .inside fd) (st.next (.write bytes failed)) := by
  cases failed with
  | true => exact ⟨by simp [Progress.next], hst.2⟩
  | false => exact hst

/-- Each call on the course is one that the rules allow. -/
theorem suits_act {s s' : Shared σ} (hst : Suits place st)
    (h : (course sys.shared i).act place s place' s') :
    ∃ st', (conduct i).act st s st' s' ∧ Suits place' st' := by
  cases h with
  | openFirst =>
    subst hst
    refine ⟨_, ⟨.openDevice, ⟨rfl, rfl⟩, by simp [Progress.May, Progress.first], rfl⟩, ?_⟩
    unfold afterOpen
    split
    · exact ⟨by simp [Progress.next, Progress.first], rfl, rfl⟩
    · trivial
  | recv => exact ⟨_, ⟨.recv i, ⟨rfl, rfl⟩, hst.1, rfl⟩, hst⟩
  | @ioctl _ fd c o => exact ⟨_, ⟨.ioctl c o, ⟨rfl, rfl⟩, hst.1, rfl⟩, hst.1, rfl, hst.2.2⟩
  | write => exact ⟨_, ⟨.write _ _, ⟨rfl, rfl⟩, hst.1, rfl⟩, suits_afterWrite _ hst _⟩
  | closeFirst => exact ⟨_, ⟨.closeDevice, ⟨rfl, rfl⟩, hst.1, rfl⟩, hst⟩
  | openLast =>
    refine ⟨_, ⟨.openDevice, ⟨rfl, rfl⟩, hst.1, rfl⟩, ?_⟩
    unfold afterOpen
    split
    · exact hst
    · trivial
  | read h => exact ⟨_, ⟨.read, ⟨rfl, rfl⟩, hst.1, rfl⟩, suits_afterRead h hst⟩
  | send => exact ⟨_, ⟨.send i _, ⟨rfl, rfl⟩, hst.1, rfl⟩, suits_afterSend hst _⟩
  | complete =>
    obtain ⟨hgrip, hsought, hcomplete⟩ := hst
    exact ⟨_, ⟨.complete i, ⟨rfl, rfl⟩, ⟨rfl, hgrip, hcomplete, hsought⟩, rfl⟩, hgrip, hsought, rfl⟩
  | closeLast => exact ⟨_, ⟨.closeDevice, ⟨rfl, rfl⟩, hst.1, rfl⟩, hst⟩
  | closeSought => exact ⟨_, ⟨.closeDevice, ⟨rfl, rfl⟩, hst.1, rfl⟩, hst⟩

/-- Every session keeps to the rules. -/
theorem follows_dataProcessor (sys : Sys σ) (limit i : Nat) :
    (conduct i).Follows (fun st _ => st.Over) Progress.first
      (dataProcessor sys.shared limit i) := by
  have hstart : Suits .start Progress.first := rfl
  refine (course_dataProcessor sys.shared limit i).simulate Suits (fun _ _ _ => suits_lock)
    (fun _ _ _ => suits_unlock) (fun _ _ _ _ _ => suits_act) ?_ hstart
  rintro place st _ hst ⟨seek, rfl⟩
  obtain ⟨hgrip, hsought, hcomplete⟩ := hst
  refine ⟨hgrip, ?_⟩
  rw [hsought, hcomplete]
  cases seek <;> simp

end Course

end Aesd.Proofs
