import Mathlib.Data.List.Basic

namespace Aesd.Base

/-- Parts put together into messages: the parts of each finished message, and
those of the one that is still open. -/
structure Groups (α : Type) where
  closed : List (List (List α))
  rest : List (List α)

namespace Groups
variable {α : Type} [DecidableEq α] (mark : α)

def empty : Groups α := ⟨[], []⟩

/-- A part that contains the mark ends its message. -/
def add (g : Groups α) (part : List α) : Groups α :=
  if mark ∈ part then ⟨g.closed ++ [g.rest ++ [part]], []⟩ else ⟨g.closed, g.rest ++ [part]⟩

def of (parts : List (List α)) : Groups α := parts.foldl (add mark) empty

/-- The finished messages as they read. -/
def messages (g : Groups α) : List (List α) := g.closed.map List.flatten

theorem foldl_flatten (g : Groups α) (parts : List (List α)) :
    (parts.foldl (add mark) g).messages.flatten ++ (parts.foldl (add mark) g).rest.flatten =
      g.messages.flatten ++ g.rest.flatten ++ parts.flatten := by
  induction parts generalizing g with
  | nil => simp
  | cons part parts ih =>
    rw [List.foldl_cons, ih]
    unfold add
    split <;> simp [messages]

/-- Grouping loses nothing and changes no order. -/
theorem of_flatten (parts : List (List α)) :
    (of mark parts).messages.flatten ++ (of mark parts).rest.flatten = parts.flatten := by
  simpa [of, empty, messages] using foldl_flatten mark empty parts

theorem foldl_closed_length (g : Groups α) (parts : List (List α)) :
    (parts.foldl (add mark) g).closed.length =
      g.closed.length + (parts.filter (fun part => decide (mark ∈ part))).length := by
  induction parts generalizing g with
  | nil => simp
  | cons part parts ih =>
    rw [List.foldl_cons, ih]
    unfold add
    split <;> rename_i h <;> simp [h]
    omega

theorem of_closed_length (parts : List (List α)) : (of mark parts).closed.length =
    (parts.filter (fun part => decide (mark ∈ part))).length := by
  simpa [of, empty] using foldl_closed_length mark empty parts

/-- Parts of which only the last one has the mark make one more message. -/
theorem foldl_add_message (g : Groups α) (parts : List (List α)) (last : List α)
    (h : ∀ part ∈ parts, mark ∉ part) (hlast : mark ∈ last) :
    (parts ++ [last]).foldl (add mark) g = ⟨g.closed ++ [g.rest ++ parts ++ [last]], []⟩ := by
  induction parts generalizing g with
  | nil => simp [add, hlast]
  | cons part parts ih =>
    have hpart := h part List.mem_cons_self
    rw [List.cons_append, List.foldl_cons, ih _ (fun x hx => h x (List.mem_cons_of_mem _ hx))]
    simp [add, hpart]

/-- One more element of a stream of messages, each ended by the mark. -/
def splitStep (done : List (List α) × List α) (a : α) : List (List α) × List α :=
  if a = mark then (done.1 ++ [done.2 ++ [a]], []) else (done.1, done.2 ++ [a])

/-- The messages of a stream, and what follows the last of them. -/
def split (stream : List α) : List (List α) × List α := stream.foldl (splitStep mark) ([], [])

theorem foldl_splitStep_of_not_mem (done : List (List α) × List α) {part : List α}
    (h : mark ∉ part) : part.foldl (splitStep mark) done = (done.1, done.2 ++ part) := by
  induction part generalizing done with
  | nil => simp
  | cons a part ih =>
    simp only [List.mem_cons, not_or] at h
    rw [List.foldl_cons, ih _ h.2]
    simp [splitStep, Ne.symm h.1]

/-- Parts that have the mark at their end only are grouped as their stream is
split. The induction carries the groups that there are already. -/
theorem foldl_split (g : Groups α) (parts : List (List α))
    (h : ∀ part ∈ parts, mark ∉ part.dropLast) :
    ((parts.foldl (add mark) g).messages, (parts.foldl (add mark) g).rest.flatten) =
      parts.flatten.foldl (splitStep mark) (g.messages, g.rest.flatten) := by
  induction parts generalizing g with
  | nil => rfl
  | cons part parts ih =>
    rw [List.foldl_cons, ih _ (fun p hp => h p (List.mem_cons_of_mem _ hp)), List.flatten_cons,
      List.foldl_append]
    congr 1
    by_cases hm : mark ∈ part
    · obtain ⟨front, a, rfl⟩ : ∃ front a, part = front ++ [a] :=
        ⟨_, _, (List.dropLast_append_getLast (List.ne_nil_of_mem hm)).symm⟩
      have hlast := h _ List.mem_cons_self
      rw [List.dropLast_concat] at hlast
      obtain rfl : mark = a := by simpa [hlast] using hm
      rw [List.foldl_append, foldl_splitStep_of_not_mem _ _ hlast]
      simp [add, splitStep, messages]
    · rw [foldl_splitStep_of_not_mem _ _ hm]
      simp [add, hm, messages]

/-- So grouping such parts depends on their stream alone. -/
theorem of_split (parts : List (List α)) (h : ∀ part ∈ parts, mark ∉ part.dropLast) :
    ((of mark parts).messages, (of mark parts).rest.flatten) = split mark parts.flatten :=
  foldl_split mark empty parts h

end Groups

end Aesd.Base
