import Mathlib.Data.List.Nodup
import Mathlib.Logic.Function.Basic

namespace Aesd.Base

/-- A singly linked list as sys/queue.h keeps it: the address of the first node,
and the link in each node. -/
structure SList (ι : Type) where
  head : Option ι
  next : ι → Option ι

namespace SList
variable {ι : Type}

/-- SLIST_EMPTY -/
def isEmpty (l : SList ι) : Bool := l.head.isNone

/-- SLIST_REMOVE_HEAD, which follows the head without looking. -/
def removeHead (l : SList ι) : Option (SList ι) := l.head.map (fun x => { l with head := l.next x })

/-- SLIST_INSERT_HEAD -/
def insertHead [DecidableEq ι] (l : SList ι) (x : ι) : SList ι :=
  { head := some x, next := Function.update l.next x l.head }

/-- SLIST_INSERT_AFTER -/
def insertAfter [DecidableEq ι] (l : SList ι) (y x : ι) : SList ι :=
  { l with next := Function.update (Function.update l.next x (l.next y)) y (some x) }

/-- The links lead from `start` through the given nodes to NULL. -/
inductive Chain (next : ι → Option ι) : Option ι → List ι → Prop
  | nil : Chain next none []
  | cons {x : ι} {xs : List ι} (tail : Chain next (next x) xs) : Chain next (some x) (x :: xs)

variable {l : SList ι} {next next' : ι → Option ι} {start : Option ι} {xs : List ι} {x y : ι}

/-- Only the links of its own nodes matter to a chain. -/
theorem Chain.congr (h : Chain next start xs) (heq : ∀ z ∈ xs, next' z = next z) :
    Chain next' start xs := by
  induction h with
  | nil => exact .nil
  | @cons z zs tail ih =>
    apply Chain.cons
    rw [heq z List.mem_cons_self]
    exact ih (fun w hw => heq w (List.mem_cons_of_mem _ hw))

theorem Chain.start_eq (h : Chain next start xs) : start = xs.head? := by
  cases h <;> rfl

/-- Each node is linked to the one after it. -/
theorem Chain.next_eq (h : Chain next start xs) {i : Nat} (hi : xs[i]? = some x) :
    next x = xs[i + 1]? := by
  induction h generalizing i with
  | nil => simp at hi
  | @cons z zs tail ih =>
    cases i with
    | zero =>
      obtain rfl : z = x := by simpa using hi
      rw [tail.start_eq, List.head?_eq_getElem?]
      rfl
    | succ i => exact ih hi

theorem chain_isEmpty (h : Chain l.next l.head xs) : l.isEmpty = true ↔ xs = [] := by
  rw [isEmpty, h.start_eq, Option.isNone_iff_eq_none, List.head?_eq_none_iff]

variable [DecidableEq ι]

theorem Chain.insertHead (h : Chain l.next l.head xs) (hx : x ∉ xs) :
    Chain (l.insertHead x).next (l.insertHead x).head (x :: xs) := by
  apply Chain.cons
  simp only [SList.insertHead, Function.update_self]
  apply h.congr
  intro z hz
  rw [Function.update_of_ne]
  rintro rfl
  exact hx hz

/-- Inserting behind the last node appends to the list. -/
theorem Chain.append (h : Chain next start xs) (hnodup : xs.Nodup) (hx : x ∉ xs)
    (hlast : xs.getLast? = some y) :
    Chain (Function.update (Function.update next x (next y)) y (some x)) start (xs ++ [x]) := by
  induction h with
  | nil => simp at hlast
  | @cons z zs tail ih =>
    obtain ⟨hz, hzs⟩ := List.nodup_cons.mp hnodup
    have hxz : x ≠ z := fun he => hx (he ▸ List.mem_cons_self)
    have hxzs : x ∉ zs := fun hm => hx (List.mem_cons_of_mem _ hm)
    refine .cons ?_
    cases zs with
    | nil =>
      obtain rfl : z = y := by simpa using hlast
      rw [Function.update_self]
      refine .cons ?_
      rw [Function.update_of_ne hxz, Function.update_self]
      have hnull : next z = none := tail.start_eq
      rw [hnull]
      exact .nil
    | cons w ws =>
      rw [List.getLast?_cons_cons] at hlast
      have hzy : z ≠ y := fun he => hz (he ▸ List.mem_of_getLast? hlast)
      rw [Function.update_of_ne hzy, Function.update_of_ne hxz.symm]
      exact ih hzs hxzs hlast

theorem Chain.insertAfter (h : Chain l.next l.head xs) (hnodup : xs.Nodup) (hx : x ∉ xs)
    (hlast : xs.getLast? = some y) :
    Chain (l.insertAfter y x).next (l.insertAfter y x).head (xs ++ [x]) :=
  h.append hnodup hx hlast

end SList

end Aesd.Base
