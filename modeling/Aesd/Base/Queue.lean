import Mathlib.Data.List.DropRight
import Mathlib.Data.List.Rotate
import Mathlib.Data.Nat.ModEq

namespace Aesd.Base.Queue

/-- A circular array of `n` slots, read from `out` on with wraparound, holds the
queue `q`, oldest first; the slots behind the queue are blank. Until the array
has filled up once, reading starts at slot 0. -/
structure Holds {α : Type} {n : Nat} (blank : α) (slots : Vector α n) (inn out : Nat)
    (q : List α) : Prop where
  out_lt : out < n
  fits : q.length ≤ n
  inn_eq : inn = (out + q.length) % n
  start : q.length < n → out = 0
  slot : ∀ i, i < n → slots[(out + i) % n]? = some (q.getD i blank)

/-- Advancing an offset by one, the way the array's code does it. -/
def next (n i : Nat) : Nat := if i + 1 ≥ n then 0 else i + 1

theorem next_eq (hi : i < n) : next n i = (i + 1) % n := by
  unfold next
  split
  · have he : i + 1 = n := by omega
    simp [he]
  · rw [Nat.mod_eq_of_lt (by omega)]

theorem next_mod (hn : 0 < n) (out i : Nat) : next n ((out + i) % n) = (out + (i + 1)) % n := by
  rw [next_eq (Nat.mod_lt _ hn), Nat.mod_add_mod, Nat.add_assoc]

variable {α : Type} {n : Nat} {blank : α} {slots : Vector α n} {inn out : Nat} {q : List α}

theorem holds_empty (hn : 0 < n) : Holds blank (Vector.replicate n blank) 0 0 [] := by
  refine ⟨hn, Nat.zero_le n, by simp, fun _ => rfl, ?_⟩
  intro i hi
  simp [Nat.mod_eq_of_lt hi, hi]

theorem Holds.pos (h : Holds blank slots inn out q) : 0 < n := Nat.zero_lt_of_lt h.out_lt

theorem Holds.inn_lt (h : Holds blank slots inn out q) : inn < n := by
  rw [h.inn_eq]
  exact Nat.mod_lt _ h.pos

theorem Holds.inn_full (h : Holds blank slots inn out q) (hq : q.length = n) : inn = out := by
  rw [h.inn_eq, hq, Nat.add_mod_right, Nat.mod_eq_of_lt h.out_lt]

/-- The slot to be written next is the oldest entry of a full array. -/
theorem Holds.slot_full (h : Holds blank slots inn out q) (hq : q.length = n) :
    slots[inn]? = some (q.getD 0 blank) := by
  have := h.slot 0 h.pos
  rwa [Nat.add_zero, Nat.mod_eq_of_lt h.out_lt, ← h.inn_full hq] at this

/-- The slot to be written next is blank as long as the array is not full. -/
theorem Holds.slot_filling (h : Holds blank slots inn out q) (hq : q.length < n) :
    slots[inn]? = some blank := by
  have hs := h.slot q.length hq
  rw [← h.inn_eq] at hs
  simpa using hs

/-- Two slots less than a full turn apart are different. -/
theorem mod_ne {a i j : Nat} (hi : i < n) (hj : j < n) (hne : i ≠ j) :
    (a + i) % n ≠ (a + j) % n := by
  intro he
  have hmod : i % n = j % n := Nat.ModEq.add_left_cancel' a he
  rw [Nat.mod_eq_of_lt hi, Nat.mod_eq_of_lt hj] at hmod
  exact hne hmod

theorem Holds.push_filling (h : Holds blank slots inn out q) (hq : q.length < n) (x : α) :
    Holds blank (slots.setIfInBounds inn x) (next n inn) out (q ++ [x]) := by
  refine ⟨h.out_lt, by simp; omega, ?_, fun _ => h.start hq, ?_⟩
  · rw [h.inn_eq, next_mod h.pos, List.length_append, List.length_singleton]
  · intro i hi
    rw [Vector.getElem?_setIfInBounds]
    by_cases he : i = q.length
    · subst he
      rw [← h.inn_eq]
      simp [h.inn_lt]
    · have hne : inn ≠ (out + i) % n := by
        rw [h.inn_eq]
        exact mod_ne hq hi (Ne.symm he)
      rw [if_neg hne, h.slot i hi]
      by_cases hlt : i < q.length
      · simp [List.getD, hlt, List.getElem?_append_left]
      · have hge : q.length + 1 ≤ i := by omega
        have hlen : (q ++ [x]).length ≤ i := by simpa using hge
        rw [List.getD_eq_getElem?_getD, List.getD_eq_getElem?_getD, List.getElem?_eq_none hlen,
          List.getElem?_eq_none (Nat.le_of_succ_le hge)]

theorem Holds.push_full (h : Holds blank slots inn out q) (hq : q.length = n) (x : α) :
    Holds blank (slots.setIfInBounds inn x) (next n inn) (next n out) (q.tail ++ [x]) := by
  have hpos := h.pos
  have hinn := h.inn_full hq
  have hout := next_eq h.out_lt
  have hlen : (q.tail ++ [x]).length = n := by simp; omega
  refine ⟨?_, by omega, ?_, by omega, ?_⟩
  · rw [hout]
    exact Nat.mod_lt _ hpos
  · rw [hlen, hinn, hout, Nat.add_mod_right, Nat.mod_mod]
  · intro i hi
    rw [Vector.getElem?_setIfInBounds, hout, Nat.mod_add_mod, Nat.add_assoc]
    by_cases he : i + 1 = n
    · have hz : (out + (1 + i)) % n = inn := by
        rw [Nat.add_comm 1 i, he, Nat.add_mod_right, Nat.mod_eq_of_lt h.out_lt, hinn]
      have hi' : i = q.tail.length := by simp; omega
      rw [hz, if_pos rfl, if_pos h.inn_lt, hi']
      simp
    · have hlt : 1 + i < n := by omega
      have hne : inn ≠ (out + (1 + i)) % n := by
        have hz := mod_ne (a := out) hpos hlt (by omega)
        rw [Nat.add_zero, Nat.mod_eq_of_lt h.out_lt] at hz
        rwa [hinn]
      rw [if_neg hne, h.slot (1 + i) hlt]
      have hi' : i < q.tail.length := by simp; omega
      rw [List.getD, List.getD, List.getElem?_append_left hi', List.getElem?_tail,
        Nat.add_comm 1 i]

/-- A new entry appended to the queue, the oldest dropped once there is no room. -/
def push (n : Nat) (q : List α) (x : α) : List α := (q ++ [x]).rtake n

theorem push_filling (hq : q.length < n) (x : α) : push n q x = q ++ [x] := by
  have hz : (q ++ [x]).length - n = 0 := by simp; omega
  rw [push, List.rtake, hz, List.drop_zero]

theorem push_full (hpos : 0 < n) (hq : q.length = n) (x : α) :
    push n q x = q.tail ++ [x] := by
  have hz : (q ++ [x]).length - n = 1 := by simp; omega
  rw [push, List.rtake, hz, List.drop_append_of_le_length (by omega), List.drop_one]

/-- Dropping the oldest entries early does not matter. -/
theorem rtake_append_rtake (xs ys : List α) : (xs.rtake n ++ ys).rtake n = (xs ++ ys).rtake n := by
  simp only [List.rtake_eq_reverse_take_reverse, List.reverse_append, List.reverse_reverse,
    List.take_append, List.take_take]
  rw [Nat.min_eq_left (Nat.sub_le _ _)]

/-- Keeping the last `n` after each arrival keeps the last `n` of all arrivals. -/
theorem push_rtake (n : Nat) (xs : List α) (x : α) :
    push n (xs.rtake n) x = (xs ++ [x]).rtake n := rtake_append_rtake xs [x]

theorem length_rtake (xs : List α) (n : Nat) : (xs.rtake n).length = min n xs.length := by
  simp only [List.rtake, List.length_drop]
  omega

theorem length_push_le (n : Nat) (q : List α) (x : α) : (push n q x).length ≤ n :=
  (length_rtake (q ++ [x]) n).trans_le (Nat.min_le_left _ _)

theorem rtake_of_le (xs : List α) (hn : xs.length ≤ n) : xs.rtake n = xs := by
  have hz : xs.length - n = 0 := by omega
  rw [List.rtake, hz, List.drop_zero]

theorem map_rtake {β : Type} (f : α → β) (xs : List α) (n : Nat) :
    (xs.rtake n).map f = (xs.map f).rtake n := by
  simp [List.rtake, List.map_drop]

/-- The whole array in reading order. -/
def walk (slots : Vector α n) (out : Nat) (blank : α) : List α :=
  (List.range n).map (fun i => (slots[(out + i) % n]?).getD blank)

theorem walk_eq_rotate (slots : Vector α n) (out : Nat) (blank : α) :
    walk slots out blank = slots.toList.rotate out := by
  apply List.ext_getElem
  · simp [walk]
  · intro i hi _
    have hin : i < n := by simpa [walk] using hi
    have hlt : (out + i) % n < n := Nat.mod_lt _ (by omega)
    simp [walk, List.getElem_rotate, hlt, Nat.add_comm i out]

/-- From wherever it is read, the array holds the same entries. -/
theorem walk_perm (slots : Vector α n) (out : Nat) (blank : α) :
    (walk slots out blank).Perm slots.toList := by
  rw [walk_eq_rotate]
  exact List.rotate_perm _ _

theorem Holds.walk_eq (h : Holds blank slots inn out q) :
    walk slots out blank = q ++ List.replicate (n - q.length) blank := by
  have hfits := h.fits
  apply List.ext_getElem
  · simp [walk]
    omega
  · intro i hi hi'
    have hin : i < n := by simpa [walk] using hi
    simp only [walk, List.getElem_map, List.getElem_range, h.slot i hin, Option.getD_some]
    by_cases hlt : i < q.length
    · simp [List.getD, hlt, List.getElem_append_left]
    · simp [List.getD, hlt, List.getElem_append_right, Nat.le_of_not_lt hlt]

end Aesd.Base.Queue
