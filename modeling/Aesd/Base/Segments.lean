import Mathlib.Data.List.Basic
import Mathlib.Algebra.BigOperators.Group.List.Basic
import Mathlib.Algebra.Order.Ring.Nat

namespace Aesd.Base.Segments

/-- Where position `p` of segments laid end to end falls: the segment and the
offset in it. Empty segments hold no position. -/
def locate : List Nat → Nat → Option (Nat × Nat)
  | [], _ => none
  | n :: ns, p => if p < n then some (0, p) else (locate ns (p - n)).map (fun (i, j) => (i + 1, j))

theorem locate_none_iff (ns : List Nat) (p : Nat) : locate ns p = none ↔ ns.sum ≤ p := by
  induction ns generalizing p with
  | nil => simp [locate]
  | cons n ns ih =>
    simp only [locate, List.sum_cons]
    split
    · simp only [reduceCtorEq, false_iff]
      omega
    · simp only [Option.map_eq_none_iff, ih]
      omega

theorem locate_some_iff (ns : List Nat) (p i j : Nat) :
    locate ns p = some (i, j) ↔ j < ns.getD i 0 ∧ p = (ns.take i).sum + j := by
  induction ns generalizing p i with
  | nil => simp [locate]
  | cons n ns ih =>
    simp only [locate]
    split
    · rename_i hp
      cases i with
      | zero =>
        simp only [Option.some.injEq, Prod.mk.injEq, true_and, List.getD_cons_zero, List.take_zero,
          List.sum_nil, Nat.zero_add]
        omega
      | succ i =>
        simp only [Option.some.injEq, Prod.mk.injEq, List.getD_cons_succ, List.take_succ_cons,
          List.sum_cons]
        omega
    · rename_i hp
      cases i with
      | zero =>
        simp only [Option.map_eq_some_iff, Prod.mk.injEq, List.getD_cons_zero, List.take_zero,
          List.sum_nil, Nat.zero_add]
        constructor
        · rintro ⟨⟨a, b⟩, _, ha, _⟩
          omega
        · omega
      | succ i =>
        simp only [Option.map_eq_some_iff, Prod.mk.injEq, List.getD_cons_succ, List.take_succ_cons,
          List.sum_cons]
        have hi := ih (p - n) i
        constructor
        · rintro ⟨⟨a, b⟩, hab, ha, hb⟩
          obtain rfl : a = i := by omega
          subst hb
          obtain ⟨hj, he⟩ := hi.mp hab
          exact ⟨hj, by omega⟩
        · rintro ⟨hj, he⟩
          exact ⟨(i, j), hi.mpr ⟨hj, by omega⟩, rfl, rfl⟩

theorem locate_lt {ns : List Nat} {p i j : Nat} (h : locate ns p = some (i, j)) :
    i < ns.length := by
  have hj := ((locate_some_iff ns p i j).mp h).1
  rw [List.getD_eq_getElem?_getD] at hj
  by_contra hge
  rw [List.getElem?_eq_none (by omega)] at hj
  simp at hj

/-- The end of a segment is the start of the next one. -/
theorem sum_take_succ (ns : List Nat) (i : Nat) :
    (ns.take (i + 1)).sum = (ns.take i).sum + ns.getD i 0 := by
  rw [List.take_add_one, List.sum_append, List.getD_eq_getElem?_getD]
  cases ns[i]? <;> simp

theorem sum_take_le (ns : List Nat) (i : Nat) : (ns.take i).sum ≤ ns.sum := by
  have h := congrArg List.sum (List.take_append_drop i ns)
  rw [List.sum_append] at h
  omega

/-- Empty segments at the end change nothing. -/
theorem locate_append_zeros (ns : List Nat) (m p : Nat) :
    locate (ns ++ List.replicate m 0) p = locate ns p := by
  induction ns generalizing p with
  | nil =>
    have hnone : locate (List.replicate m 0) p = none := by
      rw [locate_none_iff]
      simp
    simp [hnone, locate]
  | cons n ns ih => simp [locate, ih]

variable {α : Type} {segs : List (List α)}

def lengths (segs : List (List α)) : List Nat := segs.map List.length

theorem length_flatten (segs : List (List α)) : segs.flatten.length = (lengths segs).sum := by
  simp [lengths, List.length_flatten]

/-- Cutting something off the ends of segments leaves no more of them together. -/
theorem length_flatten_le {β : Type} {xs : List β} {f g : β → List α}
    (h : ∀ x ∈ xs, f x <+: g x) : (xs.map f).flatten.length ≤ (xs.map g).flatten.length := by
  induction xs with
  | nil => exact Nat.le_refl _
  | cons x xs ih =>
    obtain ⟨hx, hxs⟩ := List.forall_mem_cons.mp h
    simp only [List.map_cons, List.flatten_cons, List.length_append]
    exact Nat.add_le_add hx.length_le (ih hxs)

/-- It leaves all of them together exactly if nothing was cut off any of them. -/
theorem flatten_eq_iff {β : Type} {xs : List β} {f g : β → List α} (h : ∀ x ∈ xs, f x <+: g x) :
    (xs.map f).flatten = (xs.map g).flatten ↔ ∀ x ∈ xs, f x = g x := by
  induction xs with
  | nil => simp
  | cons x xs ih =>
    obtain ⟨hx, hxs⟩ := List.forall_mem_cons.mp h
    rw [List.forall_mem_cons, ← ih hxs, List.map_cons, List.map_cons, List.flatten_cons,
      List.flatten_cons]
    constructor
    · intro heq
      have hrest := length_flatten_le hxs
      have hlen := congrArg List.length heq
      rw [List.length_append, List.length_append] at hlen
      exact List.append_inj heq (Nat.le_antisymm hx.length_le (by omega))
    · rintro ⟨hfirst, hrest⟩
      rw [hfirst, hrest]

theorem take_lengths_append {n : Nat} (later : List (List α)) (h : n ≤ segs.length) :
    (lengths (segs ++ later)).take n = (lengths segs).take n := by
  rw [lengths, List.map_append]
  exact List.take_append_of_le_length (by rwa [List.length_map])

theorem getD_lengths (segs : List (List α)) (i : Nat) :
    (lengths segs).getD i 0 = (segs.getD i []).length := by
  simp only [lengths, List.getD_eq_getElem?_getD, List.getElem?_map]
  cases segs[i]? <;> simp

/-- The first byte of a segment. -/
theorem locate_start {i : Nat} {seg : List α} (hi : segs[i]? = some seg) (hne : seg ≠ []) :
    locate (lengths segs) ((lengths segs).take i).sum = some (i, 0) := by
  refine (locate_some_iff _ _ _ _).mpr ⟨?_, rfl⟩
  rw [getD_lengths, List.getD_eq_getElem?_getD, hi]
  exact List.length_pos_iff.mpr hne

theorem locate_end_le {p i j : Nat} (h : locate (lengths segs) p = some (i, j)) :
    p + ((segs.getD i []).length - j) ≤ (lengths segs).sum := by
  obtain ⟨hj, hp⟩ := (locate_some_iff _ _ _ _).mp h
  have hle := sum_take_le (lengths segs) (i + 1)
  rw [sum_take_succ] at hle
  rw [getD_lengths] at hj hle
  omega

/-- From a located position on there is the rest of that segment, then all that
follows it. -/
theorem drop_flatten {p i j : Nat} (h : locate (lengths segs) p = some (i, j)) :
    segs.flatten.drop p =
      (segs.getD i []).drop j ++ segs.flatten.drop (p + ((segs.getD i []).length - j)) := by
  induction segs generalizing p i with
  | nil => simp [lengths, locate] at h
  | cons s segs ih =>
    simp only [lengths, List.map_cons, locate] at h
    split at h
    · rename_i hp
      obtain ⟨rfl, rfl⟩ : i = 0 ∧ j = p := by simpa [eq_comm] using h
      have he : j + (s.length - j) = s.length := by omega
      simp [he, List.drop_append_of_le_length (Nat.le_of_lt hp)]
    · rename_i hp
      simp only [Option.map_eq_some_iff, Prod.mk.injEq] at h
      obtain ⟨⟨a, b⟩, hab, rfl, rfl⟩ := h
      have hpast : ∀ k, (s ++ segs.flatten).drop (p + k) = segs.flatten.drop (p - s.length + k) := by
        intro k
        have hnil : s.drop (p + k) = [] := List.drop_eq_nil_of_le (by omega)
        rw [List.drop_append, hnil, List.nil_append]
        congr 1
        omega
      simp only [List.flatten_cons, List.getD_cons_succ]
      rw [hpast, ← ih hab]
      exact hpast 0

/-- Reading on from `p` until nothing is left, one segment at a time. -/
inductive Reads (segs : List (List α)) : Nat → List (List α) → Nat → Prop
  | done {p : Nat} (h : locate (lengths segs) p = none) : Reads segs p [] p
  | more {p p' i j : Nat} {cs : List (List α)} (h : locate (lengths segs) p = some (i, j))
      (rest : Reads segs (p + ((segs.getD i []).length - j)) cs p') :
      Reads segs p ((segs.getD i []).drop j :: cs) p'

/-- The chunks read, put together, are all that lay behind the start. -/
theorem Reads.flatten {p p' : Nat} {cs : List (List α)} (h : Reads segs p cs p') :
    cs.flatten = segs.flatten.drop p := by
  induction h with
  | done h =>
    rw [locate_none_iff, ← length_flatten] at h
    simp [List.drop_eq_nil_of_le h]
  | more h _ ih => rw [List.flatten_cons, ih, ← drop_flatten h]

theorem Reads.end_eq {p p' : Nat} {cs : List (List α)} (h : Reads segs p cs p') :
    p' = max p segs.flatten.length := by
  induction h with
  | done h =>
    rw [locate_none_iff, ← length_flatten] at h
    omega
  | @more p p' i j cs h _ ih =>
    have hle := locate_end_le h
    rw [← length_flatten] at hle
    omega

/-- Each read ends at a segment boundary, so there are no more reads than
segments. The induction is on the number of segments still ahead. -/
theorem exists_reads (segs : List (List α)) (p : Nat) :
    ∃ cs p', Reads segs p cs p' ∧ cs.length ≤ segs.length := by
  have key : ∀ k p, (∀ i j, locate (lengths segs) p = some (i, j) → segs.length ≤ i + k) →
      ∃ cs p', Reads segs p cs p' ∧ cs.length ≤ k := by
    intro k
    induction k with
    | zero =>
      intro p hk
      refine ⟨[], p, .done ?_, Nat.le_refl 0⟩
      cases h : locate (lengths segs) p with
      | none => rfl
      | some found =>
        obtain ⟨i, j⟩ := found
        have hlt := locate_lt h
        have hge := hk i j h
        simp only [lengths, List.length_map] at hlt
        omega
    | succ k ih =>
      intro p hk
      cases h : locate (lengths segs) p with
      | none => exact ⟨[], p, .done h, Nat.zero_le _⟩
      | some found =>
        obtain ⟨i, j⟩ := found
        obtain ⟨hj, hp⟩ := (locate_some_iff _ _ _ _).mp h
        have hend : p + ((segs.getD i []).length - j) = ((lengths segs).take (i + 1)).sum := by
          rw [sum_take_succ, getD_lengths]
          rw [getD_lengths] at hj
          omega
        have hnext : ∀ i' j', locate (lengths segs) (p + ((segs.getD i []).length - j)) =
            some (i', j') → segs.length ≤ i' + k := by
          intro i' j' h'
          obtain ⟨hj', hp'⟩ := (locate_some_iff _ _ _ _).mp h'
          have hi := hk i j h
          by_contra hlt
          have hle : i' ≤ i := by omega
          have hmono := sum_take_le ((lengths segs).take (i + 1)) (i' + 1)
          rw [List.take_take, Nat.min_eq_left (by omega), sum_take_succ] at hmono
          omega
        obtain ⟨cs, p', hr, hlen⟩ := ih _ hnext
        exact ⟨_, p', .more h hr, by simpa using hlen⟩
  apply key segs.length p
  intro i j _
  omega

end Aesd.Base.Segments
