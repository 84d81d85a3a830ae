import Aesd.Base.Groups
import Mathlib.Data.List.Chain
import Mathlib.Data.List.Induction

namespace Aesd.Base.Groups
variable {α ι : Type} {mark : α}

/-- A message that has the mark at its end only is complete with the mark. -/
theorem eq_of_prefix {part message : List α} (hp : part <+: message) (hm : mark ∈ part)
    (hmark : mark ∉ message.dropLast) : part = message := by
  obtain ⟨rest, rfl⟩ := hp
  by_cases hr : rest = []
  · rw [hr, List.append_nil]
  · rw [List.dropLast_append_of_ne_nil hr] at hmark
    exact absurd (List.mem_append_left _ hm) hmark

/-- A source adds a part only when the last part was its own or ended a message. -/
def Apart (mark : α) (history : List (ι × List α)) : Prop :=
  history.IsChain (fun e f => mark ∈ e.2 ∨ e.1 = f.1)

instance [DecidableEq α] [DecidableEq ι] (history : List (ι × List α)) :
    Decidable (Apart mark history) :=
  inferInstanceAs (Decidable (history.IsChain _))

variable [DecidableEq ι] {history : List (ι × List α)}

/-- The parts of a history that came from source `i`. -/
def partsOf (i : ι) (history : List (ι × List α)) : List (List α) :=
  (history.filter (fun e => e.1 = i)).map Prod.snd

theorem partsOf_concat_self (i : ι) (part : List α) :
    partsOf i (history ++ [(i, part)]) = partsOf i history ++ [part] := by
  simp [partsOf]

theorem partsOf_concat_of_ne {i j : ι} (h : j ≠ i) (part : List α) :
    partsOf j (history ++ [(i, part)]) = partsOf j history := by
  simp [partsOf, Ne.symm h]

variable {message : ι → List α}

/-- The source has not started or has sent all of its message. -/
def Quiet (message : ι → List α) (history : List (ι × List α)) (i : ι) : Prop :=
  (partsOf i history).flatten = [] ∨ (partsOf i history).flatten = message i

theorem Quiet.concat {i j : ι} {part : List α} (h : Quiet message history j) (hj : j ≠ i) :
    Quiet message (history ++ [(i, part)]) j := by
  rwa [Quiet, partsOf_concat_of_ne hj]

variable [DecidableEq α]

theorem of_concat (part : List α) (parts : List (List α)) :
    of mark (parts ++ [part]) = (of mark parts).add mark part := by
  simp [of]

/-- Whose turn it is: anybody's, or that of the source whose message is open. -/
inductive Turn (mark : α) (message : ι → List α) (history : List (ι × List α)) : Prop
  | free (hrest : (of mark (history.map Prod.snd)).rest = [])
      (h : ∀ j, Quiet message history j)
  | taken {i : ι} {last : List α} (hlast : history.getLast? = some (i, last)) (hm : mark ∉ last)
      (hrest : (of mark (history.map Prod.snd)).rest.flatten = (partsOf i history).flatten)
      (h : ∀ j, j ≠ i → Quiet message history j)

/-- Whoever adds a part goes on with its own message. -/
theorem Turn.next {i : ι} {part : List α} (ht : Turn mark message history)
    (hap : Apart mark (history ++ [(i, part)])) (hne : part ≠ [])
    (hpre : (partsOf i (history ++ [(i, part)])).flatten <+: message i) :
    (of mark (history.map Prod.snd)).rest.flatten = (partsOf i history).flatten ∧
      ∀ j, j ≠ i → Quiet message history j := by
  cases ht with
  | free hrest h =>
    refine ⟨?_, fun j _ => h j⟩
    rcases h i with hnil | hall
    · rw [hrest, hnil, List.flatten_nil]
    · have hlen := hpre.length_le
      have hpos := List.length_pos_iff.mpr hne
      rw [partsOf_concat_self, List.flatten_append, hall, List.length_append] at hlen
      simp only [List.flatten_cons, List.flatten_nil, List.append_nil] at hlen
      omega
  | @taken k last hlast hm hrest h =>
    have hrel := (List.isChain_append.mp hap).2.2 (k, last) hlast (i, part) rfl
    obtain rfl : k = i := hrel.resolve_left hm
    exact ⟨hrest, h⟩

/-- If sources take turns, every message is that of one of them, whole. The
induction is on the history from its end; it carries whose turn it is. -/
theorem messages_of_apart (hmark : ∀ e ∈ history, mark ∉ (message e.1).dropLast)
    (hne : ∀ e ∈ history, e.2 ≠ []) (hpre : ∀ i, (partsOf i history).flatten <+: message i)
    (hap : Apart mark history) :
    (∀ m ∈ (of mark (history.map Prod.snd)).messages, ∃ e ∈ history, m = message e.1) ∧
      Turn mark message history := by
  induction history using List.reverseRecOn with
  | nil => exact ⟨by simp [of, empty, messages], .free rfl (fun _ => Or.inl rfl)⟩
  | append_singleton history e ih =>
    obtain ⟨i, part⟩ := e
    have hshorter : ∀ j, (partsOf j history).flatten <+: message j := by
      intro j
      have hj' := hpre j
      by_cases hj : j = i
      · subst hj
        rw [partsOf_concat_self, List.flatten_append] at hj'
        exact (List.prefix_append _ _).trans hj'
      · rwa [partsOf_concat_of_ne hj] at hj'
    obtain ⟨hmsgs, hturn⟩ := ih (fun e he => hmark e (List.mem_append_left _ he))
      (fun e he => hne e (List.mem_append_left _ he)) hshorter (List.isChain_append.mp hap).1
    have hold : ∀ m ∈ (of mark (history.map Prod.snd)).messages,
        ∃ e ∈ history ++ [(i, part)], m = message e.1 := by
      intro m hin
      obtain ⟨e, he, hme⟩ := hmsgs m hin
      exact ⟨e, List.mem_append_left _ he, hme⟩
    obtain ⟨hrest, hquiet⟩ := hturn.next hap (hne (i, part) (by simp)) (hpre i)
    have hsent : (partsOf i (history ++ [(i, part)])).flatten =
        (of mark (history.map Prod.snd)).rest.flatten ++ part := by
      rw [partsOf_concat_self, List.flatten_append, hrest]
      simp
    have hof : of mark ((history ++ [(i, part)]).map Prod.snd) =
        (of mark (history.map Prod.snd)).add mark part := by
      rw [List.map_append]
      exact of_concat part _
    by_cases hm : mark ∈ part
    · have hall : (of mark (history.map Prod.snd)).rest.flatten ++ part = message i := by
        rw [← hsent]
        exact eq_of_prefix (hpre i) (by rw [hsent]; exact List.mem_append_right _ hm)
          (hmark (i, part) (by simp))
      rw [hof, add, if_pos hm]
      refine ⟨fun m hin => ?_, .free ?_ (fun j => ?_)⟩
      · simp only [messages, List.map_append, List.map_cons, List.map_nil, List.mem_append,
          List.mem_singleton] at hin
        rcases hin with hin | rfl
        · exact hold m hin
        · exact ⟨(i, part), by simp, by simpa using hall⟩
      · rw [hof, add, if_pos hm]
      · by_cases hj : j = i
        · subst hj
          exact Or.inr (hsent.trans hall)
        · exact (hquiet j hj).concat hj
    · refine ⟨?_, .taken (by simp) hm ?_ (fun j hj => (hquiet j hj).concat hj)⟩
      · rw [hof, add, if_neg hm]
        exact hold
      · rw [hof, add, if_neg hm, hsent]
        simp

end Aesd.Base.Groups
