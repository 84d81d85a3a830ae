import Aesd.Proofs.Joins
import Aesd.Proofs.Sockets

namespace Aesd.Proofs
open Base Server

variable {σ : Type} {code : Nat → Code (Shared σ) Fault Unit} {s s' : Process σ}

/-- The branch for a caught signal has come to its end: `main` has returned 0, or
the loop that frees the list has followed a NULL pointer. -/
def ShutDown (s : Process σ) : Prop := s.main = .exited 0 ∨ s.main = .nullHead

/-- Each connection is closed and its node freed exactly once, and nothing is left. -/
structure Released (s : Process σ) : Prop where
  closed : ∀ i, i < s.accepted → s.closed.count i = 1
  freed : ∀ i, i < s.accepted → s.freed.count i = 1
  sound : s.main ≠ .nullHead
  empty : s.list.head = none

/-- The loop ends at once if there is a node to free, and finds none otherwise. -/
structure Unfreed (s : Process σ) : Prop where
  freed : s.freed = []
  exited : s.main = .exited 0 → s.list.isEmpty = false
  null : s.main = .nullHead → s.list.isEmpty = true

theorem unfreed_start (mem : Shared σ) : Unfreed (.start mem) where
  freed := rfl
  exited := by
    intro hpc
    cases hpc
  null := by
    intro hpc
    cases hpc

theorem Unfreed.goto (hs : Unfreed s) (hfreed : s'.freed = s.freed)
    (hexited : s'.main ≠ .exited 0) (hnull : s'.main ≠ .nullHead) : Unfreed s' where
  freed := hfreed.trans hs.freed
  exited := fun hpc => absurd hpc hexited
  null := fun hpc => absurd hpc hnull

theorem Unfreed.mainStep (hs : Unfreed s) (h : Process.MainStep code s s') : Unfreed s' := by
  cases h with
  | stop | listen | again | refuse | accept | add | noMemory | create | noThread | first | search
  | link | further | astray | swept | ready | busy | joined | clear | passed | lastReady | lastBusy
  | lastJoined => exact hs.goto rfl (by simp) (by simp)
  | @close i | @lastClose i =>
    obtain ⟨_, _, hclose⟩ := s.closeSocket_eq i
    rw [hclose]
    exact hs.goto rfl (by simp) (by simp)
  | keep _ hempty => exact ⟨hs.freed, fun _ => hempty, by simp⟩
  | follow _ hempty => exact ⟨hs.freed, by simp, fun _ => hempty⟩
  | drop _ hempty hlist =>
    -- the body of the loop needs the node that its condition excludes
    have hnull : s.list.head = none := Option.isNone_iff_eq_none.mp hempty
    simp [SList.removeHead, hnull] at hlist

theorem unfreed_of_runs {Ok : Process σ → Process σ → Prop} {mem : Shared σ}
    (hrun : Process.Runs code Ok (.start mem) s) : Unfreed s := by
  induction hrun with
  | refl => exact unfreed_start mem
  | step _ _ h ih =>
    cases h with
    | signal => exact ⟨ih.1, ih.2, ih.3⟩
    | worker => exact ⟨ih.1, ih.2, ih.3⟩
    | main h => exact ih.mainStep h

theorem Unfreed.not_released (hs : Unfreed s) (hdown : ShutDown s) : ¬ Released s := by
  intro hreleased
  rcases hdown with hpc | hpc
  · have hsome := hs.exited hpc
    rw [SList.isEmpty, hreleased.empty] at hsome
    cases hsome
  · exact hreleased.sound hpc

/-- The shutdown never releases everything. Each connection is closed exactly once
in the whole run, but no node is ever freed, and with no connections at all the
loop that is to free the nodes follows the NULL head of the list. -/
theorem shutdown_never_releases {σ : Type} {sys : Sys σ} {limit : Nat} {mem : Shared σ}
    {s : Process σ}
    (hrun : Process.Runs (dataProcessor sys.shared limit) (fun _ _ => True) (.start mem) s)
    (hdown : ShutDown s) :
    ¬ Released s ∧ (∀ i, i < s.accepted → s.closed.count i = 1) ∧ s.freed = [] ∧
      (s.main = .nullHead ↔ s.accepted = 0) := by
  have hr := roster_of_runs hrun
  have hu := unfreed_of_runs hrun
  obtain ⟨_, hc⟩ := sockets_of_runs hrun
  have hentry : entry s.main = none := by rcases hdown with hpc | hpc <;> rw [hpc] <;> rfl
  have hpast : ∀ i, past s.main i = true := by
    intro i
    rcases hdown with hpc | hpc <;> rw [hpc] <;> rfl
  have hempty : s.list.isEmpty = true ↔ s.accepted = 0 := by
    rw [SList.chain_isEmpty hr.chain, linked_of_none hentry, List.range_eq_nil]
  refine ⟨hu.not_released hdown, fun i hi => ?_, hu.freed, ?_⟩
  · exact List.count_eq_one_of_mem hc.nodup (hc.passed i hi (hpast i))
  · rw [← hempty]
    refine ⟨hu.null, fun hnone => hdown.resolve_left (fun hpc => ?_)⟩
    cases hnone.symm.trans (hu.exited hpc)

/-- One connection, and a signal once its session is over. -/
theorem shutdown_keeps_one_node :
    ∃ s : Process Unit,
      Process.Runs (dataProcessor (stub [10] (.done 1)).shared 4) (fun _ _ => True)
        (.start ⟨(), fun _ => 0, []⟩) s ∧
      s.main = .exited 0 ∧ ¬ Released s ∧ s.closed.count 0 = 1 ∧ s.freed = [] := by
  have hplay : (play (stub [10] (.done 1))
      (proceed 4 8 ++ work 0 11 ++ .signal :: proceed 4 6)).map
      (fun s => (s.main, s.accepted)) = some (.exited 0, 1) := by decide +kernel
  obtain ⟨s, hs, hobs⟩ := Option.map_eq_some_iff.mp hplay
  simp only [Prod.mk.injEq] at hobs
  obtain ⟨hmain, haccepted⟩ := hobs
  obtain ⟨hnot, hclosed, hfreed, _⟩ := shutdown_never_releases (runs_play hs) (Or.inl hmain)
  exact ⟨s, runs_play hs, hmain, hnot, hclosed 0 (by omega), hfreed⟩

/-- A signal before the first connection, and one after it. -/
theorem shutdown_releases_nothing :
    (∃ s : Process Unit,
      Process.Runs (dataProcessor (stub [10] (.done 1)).shared 4) (fun _ _ => True)
        (.start ⟨(), fun _ => 0, []⟩) s ∧
      s.accepted = 0 ∧ s.main = .nullHead) ∧
    ∃ s : Process Unit,
      Process.Runs (dataProcessor (stub [10] (.done 1)).shared 4) (fun _ _ => True)
        (.start ⟨(), fun _ => 0, []⟩) s ∧
      s.accepted = 1 ∧ s.main = .exited 0 ∧ s.freed = [] ∧ s.list.head = some 0 := by
  have hnone : (play (stub [10] (.done 1)) (.signal :: proceed 4 3)).map
      (fun s => (s.accepted, s.main)) = some (0, .nullHead) := by decide +kernel
  have hone : (play (stub [10] (.done 1)) (proceed 4 8 ++ .signal :: proceed 4 5)).map
      (fun s => (s.accepted, s.main, s.freed, s.list.head)) = some (1, .exited 0, [], some 0) := by
    decide +kernel
  obtain ⟨s, hs, hobs⟩ := Option.map_eq_some_iff.mp hnone
  obtain ⟨s', hs', hobs'⟩ := Option.map_eq_some_iff.mp hone
  simp only [Prod.mk.injEq] at hobs hobs'
  exact ⟨⟨s, runs_play hs, hobs⟩, s', runs_play hs', hobs'⟩

end Aesd.Proofs
