import Aesd.Base.CString
import Mathlib.Algebra.Group.Nat.Defs
import Mathlib.Logic.Function.Basic

namespace Aesd.Base
open CString

/-- A pointer into the kernel heap. `zeroSize` is what an allocation of no
bytes returns: not NULL, and not the address of any byte. -/
inductive Ptr where
  | null
  | zeroSize
  | cell (id off : Nat)
  deriving DecidableEq, Repr

structure Block where
  bytes : Bytes
  live : Bool
  deriving DecidableEq, Repr

/-- Blocks are named by the order of their allocation and keep their name after
they are freed. The system answers request number `n` with `grant n`, and memory
that it hands out then still holds `stale n`. -/
structure Heap where
  blocks : List Block
  grant : Nat → Bool
  stale : Nat → Nat → UInt8
  requests : Nat
  denied : Nat

/-- KMALLOC_MAX_SIZE with pages of 4 KiB. -/
def kmallocMaxSize : Nat := 2 ^ 22

namespace Heap

def empty (grant : Nat → Bool) (stale : Nat → Nat → UInt8) : Heap := ⟨[], grant, stale, 0, 0⟩

/-- The contents of the allocated blocks, by name. -/
def view (h : Heap) (id : Nat) : Option Bytes :=
  (h.blocks[id]?).bind (fun b => if b.live then some b.bytes else none)

/-- How many blocks are allocated. -/
def live (h : Heap) : Nat := h.blocks.countP Block.live

/-- The block `id` is allocated and starts with the C string `s`. -/
def Str (h : Heap) (id : Nat) (s : List UInt8) : Prop :=
  ∃ bs, h.view id = some bs ∧ text bs = .ok s

def granted (h : Heap) (n : Nat) : Bool := decide (n ≤ kmallocMaxSize) && h.grant h.requests

/-- How the system will answer a request for `n` bytes that `i` others come before. -/
def willGrant (h : Heap) (i n : Nat) : Bool :=
  decide (n ≤ kmallocMaxSize) && h.grant (h.requests + i)

def push (h : Heap) (bs : Bytes) : Heap :=
  { h with blocks := h.blocks ++ [⟨bs, true⟩], requests := h.requests + 1 }

def deny (h : Heap) : Heap := { h with requests := h.requests + 1, denied := h.denied + 1 }

def put (h : Heap) (id : Nat) (bs : Bytes) : Heap :=
  { h with blocks := h.blocks.set id ⟨bs, true⟩ }

def retire (h : Heap) (id : Nat) : Heap :=
  { h with blocks := h.blocks.modify id (fun b => { b with live := false }) }

/-- A block for its caller to fill: a byte that is read before is a fault. -/
def kmalloc (h : Heap) (n : Nat) : Ptr × Heap :=
  if n = 0 then (.zeroSize, h)
  else if h.granted n then (.cell h.blocks.length 0, h.push (List.replicate n none))
  else (.null, h.deny)

/-- Only NULL, the zero-size pointer and the start of a live block may be freed. -/
def kfree (h : Heap) : Ptr → Except Fault Heap
  | .null | .zeroSize => .ok h
  | .cell id off =>
    match h.blocks[id]? with
    | some ⟨_, true⟩ => if off = 0 then .ok (h.retire id) else .error .badFree
    | _ => .error .badFree

/-- What the next `n` bytes to be handed out hold. -/
def leftover (h : Heap) (n : Nat) : List UInt8 := (List.range n).map (h.stale h.requests)

/-- What `n` bytes hold that `i` other requests come before. -/
def willLeave (h : Heap) (i n : Nat) : List UInt8 := (List.range n).map (h.stale (h.requests + i))

/-- The grown block is a new one: it starts with the old contents, the rest of
it is not initialised, and the old block is gone. A refusal leaves the old
block as it was. With no block to grow there are no contents to keep, but the
caller goes on as if there were, and finds what was in memory before. -/
def krealloc (h : Heap) (p : Ptr) (n : Nat) : Except Fault (Ptr × Heap) :=
  match p with
  | .null | .zeroSize =>
    if n = 0 then .ok (.zeroSize, h)
    else if h.granted n then
      .ok (.cell h.blocks.length 0, h.push ((h.leftover n).map some))
    else .ok (.null, h.deny)
  | .cell id off =>
    match h.blocks[id]? with
    | some ⟨bs, true⟩ =>
      if off ≠ 0 then .error .badFree
      else if n = 0 then .ok (.zeroSize, h.retire id)
      else if h.granted n then
        .ok (.cell h.blocks.length 0,
          (h.push (bs.take n ++ List.replicate (n - bs.length) none)).retire id)
      else .ok (.null, h.deny)
    | _ => .error .badFree

def load (h : Heap) : Ptr → Except Fault Bytes
  | .null => .error .nullDeref
  | .zeroSize => .ok []
  | .cell id off =>
    match h.blocks[id]? with
    | some ⟨bs, true⟩ => .ok (bs.drop off)
    | some ⟨_, false⟩ => .error .useAfterFree
    | none => .error .outOfBounds

def store (h : Heap) (p : Ptr) (new : List UInt8) : Except Fault Heap :=
  match p with
  | .null => .error .nullDeref
  | .zeroSize => if new = [] then .ok h else .error .outOfBounds
  | .cell id off =>
    match h.blocks[id]? with
    | some ⟨bs, true⟩ =>
      if off + new.length ≤ bs.length then .ok (h.put id (overwrite bs off new))
      else .error .outOfBounds
    | some ⟨_, false⟩ => .error .useAfterFree
    | none => .error .outOfBounds

def memset (h : Heap) (p : Ptr) (c : UInt8) (n : Nat) : Except Fault Heap :=
  h.store p (List.replicate n c)

/-- The C string at an address. -/
def string (h : Heap) (p : Ptr) : Except Fault (List UInt8) := do
  text (← h.load p)

def strlen (h : Heap) (p : Ptr) : Except Fault Nat := do
  return (← h.string p).length

def strchr (h : Heap) (p : Ptr) (c : UInt8) : Except Fault Bool := do
  contains c (← h.load p)

def Ptr.advance : Ptr → Nat → Ptr
  | .cell id off, n => .cell id (off + n)
  | p, _ => p

def strcat (h : Heap) (dest src : Ptr) : Except Fault Heap := do
  let s ← h.string src
  let d ← h.string dest
  h.store (Ptr.advance dest d.length) (s ++ [0])

def strncpy (h : Heap) (dest src : Ptr) (n : Nat) : Except Fault Heap := do
  h.store dest (padded n (← textUpTo n (← h.load src)))

section Frame
variable {h : Heap} {id j n : Nat} {bs : Bytes}

theorem view_eq_some_iff : h.view id = some bs ↔ h.blocks[id]? = some ⟨bs, true⟩ := by
  unfold view
  cases h.blocks[id]? with
  | none => simp
  | some b =>
    obtain ⟨cs, live⟩ := b
    cases live <;> simp

theorem view_fresh (hid : h.blocks.length ≤ id) : h.view id = none := by
  simp [view, List.getElem?_eq_none hid]

theorem lt_of_view (hv : h.view id = some bs) : id < h.blocks.length := by
  by_contra hge
  simp [view_fresh (Nat.le_of_not_lt hge)] at hv

@[simp] theorem length_push : (h.push bs).blocks.length = h.blocks.length + 1 := by simp [push]

@[simp] theorem length_put : (h.put id bs).blocks.length = h.blocks.length := by simp [put]

/-- The same system, `j` requests later. -/
structure Later (j : Nat) (h h' : Heap) : Prop where
  grant : h'.grant = h.grant
  stale : h'.stale = h.stale
  requests : h'.requests = h.requests + j

theorem Later.trans {i : Nat} {h₁ h₂ : Heap} (a : Later i h h₁) (b : Later j h₁ h₂) :
    Later (i + j) h h₂ := by
  refine ⟨b.grant.trans a.grant, b.stale.trans a.stale, ?_⟩
  rw [b.requests, a.requests, Nat.add_assoc]

theorem Later.willGrant {h' : Heap} (l : Later j h h') (i n : Nat) :
    h'.willGrant i n = h.willGrant (j + i) n := by
  simp only [Heap.willGrant, l.grant, l.requests, Nat.add_assoc]

theorem Later.granted {h' : Heap} (l : Later j h h') (n : Nat) :
    h'.granted n = h.willGrant j n := l.willGrant 0 n

theorem Later.leftover {h' : Heap} (l : Later j h h') (n : Nat) :
    h'.leftover n = h.willLeave j n := by
  simp only [Heap.leftover, willLeave, l.stale, l.requests]

@[simp] theorem denied_push : (h.push bs).denied = h.denied := rfl

@[simp] theorem denied_retire : (h.retire id).denied = h.denied := rfl

@[simp] theorem denied_deny : h.deny.denied = h.denied + 1 := rfl

/-- A new block shows up under the next name and nowhere else. -/
@[simp] theorem view_push :
    (h.push bs).view = Function.update h.view h.blocks.length (some bs) := by
  funext j
  by_cases he : j = h.blocks.length
  · subst he
    simp [view, push]
  · rw [Function.update_of_ne he]
    by_cases hlt : j < h.blocks.length
    · simp [view, push, List.getElem?_append_left hlt]
    · rw [view_fresh (Nat.le_of_not_lt hlt), view_fresh (by simp; omega)]

@[simp] theorem view_put (hid : id < h.blocks.length) :
    (h.put id bs).view = Function.update h.view id (some bs) := by
  funext j
  by_cases he : j = id
  · subst he
    simp [view, put, hid]
  · simp [view, put, he, Ne.symm he]

@[simp] theorem view_retire : (h.retire id).view = Function.update h.view id none := by
  funext j
  by_cases he : j = id
  · subst he
    simp only [view, retire, List.getElem?_modify, Function.update_self]
    cases h.blocks[j]? <;> simp
  · simp only [view, retire, List.getElem?_modify, Function.update_of_ne he]
    cases h.blocks[j]? <;> simp [Ne.symm he]

@[simp] theorem live_push : (h.push bs).live = h.live + 1 := by simp [live, push]

@[simp] theorem live_deny : h.deny.live = h.live := rfl

theorem live_pos (hv : h.view id = some bs) : 0 < h.live :=
  List.countP_pos_iff.mpr ⟨_, List.mem_of_getElem? (view_eq_some_iff.mp hv), rfl⟩

theorem live_put {new : Bytes} (hv : h.view id = some bs) : (h.put id new).live = h.live := by
  have hb := view_eq_some_iff.mp hv
  have hlt := lt_of_view hv
  have hpos := live_pos hv
  simp only [live] at hpos
  simp only [live, put, List.countP_set hlt, (List.getElem?_eq_some_iff.mp hb).2, ↓reduceIte]
  omega

theorem live_retire (hv : h.view id = some bs) : (h.retire id).live + 1 = h.live := by
  have hb := view_eq_some_iff.mp hv
  have hlt := lt_of_view hv
  have hpos := live_pos hv
  have hset : h.blocks.modify id (fun b => { b with live := false }) =
      h.blocks.set id ⟨bs, false⟩ := by
    refine List.ext_getElem? (fun j => ?_)
    by_cases he : id = j
    · subst he
      simp [hlt, (List.getElem?_eq_some_iff.mp hb).2]
    · simp [he]
  simp only [live] at hpos
  simp only [live, retire, hset, List.countP_set hlt, (List.getElem?_eq_some_iff.mp hb).2,
    ↓reduceIte, Bool.false_eq_true]
  omega

theorem kmalloc_granted (hn : n ≠ 0) (hg : h.granted n = true) :
    h.kmalloc n = (.cell h.blocks.length 0, h.push (List.replicate n none)) := by
  simp [kmalloc, hn, hg]

theorem kmalloc_denied (hn : n ≠ 0) (hg : h.granted n = false) :
    h.kmalloc n = (.null, h.deny) := by
  simp [kmalloc, hn, hg]

theorem kfree_cell (hv : h.view id = some bs) : h.kfree (.cell id 0) = .ok (h.retire id) := by
  simp [kfree, view_eq_some_iff.mp hv]

theorem kfree_none (hv : h.view id = none) (off : Nat) :
    h.kfree (.cell id off) = .error .badFree := by
  simp only [kfree]
  split
  · rename_i hb
    simp [view, hb] at hv
  · rfl

/-- A pointer that may be freed is NULL or names a block, which is then gone. -/
theorem kfree_ok {p : Ptr} {h' : Heap} (hf : h.kfree p = .ok h') :
    (h' = h ∧ ∀ id off, p ≠ .cell id off) ∨
      ∃ id bs, p = .cell id 0 ∧ h.view id = some bs ∧ h' = h.retire id := by
  cases p with
  | null => exact Or.inl ⟨(Except.ok.inj hf).symm, by simp⟩
  | zeroSize => exact Or.inl ⟨(Except.ok.inj hf).symm, by simp⟩
  | cell id off =>
    right
    cases hv : h.view id with
    | none => simp [kfree_none hv] at hf
    | some bs =>
      simp only [kfree, view_eq_some_iff.mp hv] at hf
      split at hf
      · rename_i hoff
        exact ⟨id, bs, by rw [hoff], hv, (Except.ok.inj hf).symm⟩
      · cases hf

theorem kfree_error {p : Ptr} {e : Fault} (hf : h.kfree p = .error e) : e = .badFree := by
  unfold kfree at hf
  split at hf
  · cases hf
  · cases hf
  · split at hf
    · split at hf
      · cases hf
      · exact (Except.error.inj hf).symm
    · exact (Except.error.inj hf).symm

theorem live_kfree {p : Ptr} {h' : Heap} (hf : h.kfree p = .ok h') : h.live ≤ h'.live + 1 := by
  rcases kfree_ok hf with ⟨rfl, _⟩ | ⟨id, bs, _, hv, rfl⟩
  · exact Nat.le_succ _
  · exact Nat.le_of_eq (live_retire hv).symm

theorem kfree_keeps_none {p : Ptr} {h' : Heap} (hf : h.kfree p = .ok h') (hv : h.view id = none) :
    h'.view id = none := by
  rcases kfree_ok hf with ⟨rfl, _⟩ | ⟨j, _, _, _, rfl⟩
  · exact hv
  · by_cases he : id = j <;> simp [he, hv]

theorem view_of_kfree {off : Nat} {h' : Heap} (hf : h.kfree (.cell id off) = .ok h') :
    h'.view id = none := by
  rcases kfree_ok hf with ⟨_, hne⟩ | ⟨j, _, hp, _, rfl⟩
  · exact absurd rfl (hne id off)
  · obtain ⟨rfl, _⟩ := Ptr.cell.inj hp
    simp

theorem exists_of_live (hpos : 0 < h.live) : ∃ id, h.view id ≠ none := by
  obtain ⟨b, hb, hlive⟩ := List.countP_pos_iff.mp hpos
  obtain ⟨id, hid⟩ := List.getElem?_of_mem hb
  exact ⟨id, by simp [view, hid, hlive]⟩

theorem krealloc_granted (hv : h.view id = some bs) (hn : n ≠ 0) (hg : h.granted n = true) :
    h.krealloc (.cell id 0) n = .ok (.cell h.blocks.length 0,
      (h.push (bs.take n ++ List.replicate (n - bs.length) none)).retire id) := by
  simp [krealloc, view_eq_some_iff.mp hv, hn, hg]

theorem krealloc_denied (hv : h.view id = some bs) (hn : n ≠ 0) (hg : h.granted n = false) :
    h.krealloc (.cell id 0) n = .ok (.null, h.deny) := by
  simp [krealloc, view_eq_some_iff.mp hv, hn, hg]

theorem krealloc_null_granted (hn : n ≠ 0) (hg : h.granted n = true) :
    h.krealloc .null n = .ok (.cell h.blocks.length 0, h.push ((h.leftover n).map some)) := by
  simp [krealloc, hn, hg]

theorem krealloc_null_denied (hn : n ≠ 0) (hg : h.granted n = false) :
    h.krealloc .null n = .ok (.null, h.deny) := by
  simp [krealloc, hn, hg]

@[simp] theorem length_leftover : (h.leftover n).length = n := by simp [leftover]

theorem load_cell (hv : h.view id = some bs) (off : Nat) :
    h.load (.cell id off) = .ok (bs.drop off) := by
  simp [load, view_eq_some_iff.mp hv]

theorem store_cell (hv : h.view id = some bs) {off : Nat} {new : List UInt8}
    (hfit : off + new.length ≤ bs.length) :
    h.store (.cell id off) new = .ok (h.put id (overwrite bs off new)) := by
  simp [store, view_eq_some_iff.mp hv, hfit]

/-- Clearing a whole block. -/
theorem memset_cell (hv : h.view id = some bs) (c : UInt8) (hn : bs.length = n) :
    h.memset (.cell id 0) c n = .ok (h.put id (List.replicate n (some c))) := by
  subst hn
  rw [memset, store_cell hv (by simp)]
  simp [overwrite]

theorem string_cell {s : List UInt8} (hv : h.view id = some bs) (ht : text bs = .ok s) :
    h.string (.cell id 0) = .ok s := by
  simp [string, load_cell hv, ht, bind, Except.bind]

theorem Str.string {s : List UInt8} (hs : h.Str id s) : h.string (.cell id 0) = .ok s := by
  obtain ⟨bs, hv, ht⟩ := hs
  exact string_cell hv ht

theorem strlen_ok {p : Ptr} {s : List UInt8} (hs : h.string p = .ok s) :
    h.strlen p = .ok s.length := by
  simp [strlen, hs, bind, Except.bind, pure, Except.pure]

theorem ne_null_of_string {p : Ptr} {s : List UInt8} (hs : h.string p = .ok s) : p ≠ .null := by
  rintro rfl
  simp [string, load, bind, Except.bind] at hs

theorem denied_kmalloc (n : Nat) :
    (h.kmalloc n).2.denied = if (h.kmalloc n).1 = .null then h.denied + 1 else h.denied := by
  unfold kmalloc
  split
  · simp
  · split <;> simp

theorem kmalloc_null_iff (hn : n ≠ 0) : (h.kmalloc n).1 = .null ↔ h.granted n = false := by
  cases hg : h.granted n with
  | true => simp [kmalloc_granted hn hg]
  | false => simp [kmalloc_denied hn hg]

theorem live_kmalloc_le (n : Nat) : h.live ≤ (h.kmalloc n).2.live := by
  unfold kmalloc
  split
  · exact Nat.le_refl _
  · split <;> simp

theorem live_kmalloc (hn : n ≠ 0) (hp : (h.kmalloc n).1 ≠ .null) :
    (h.kmalloc n).2.live = h.live + 1 := by
  cases hg : h.granted n with
  | true => rw [kmalloc_granted hn hg, live_push]
  | false => simp [kmalloc_denied hn hg] at hp

section Denied
variable {h' : Heap} {p q : Ptr}

theorem denied_kmalloc_le (n : Nat) : h.denied ≤ (h.kmalloc n).2.denied := by
  rw [denied_kmalloc]
  split <;> omega

theorem denied_krealloc_le (hf : h.krealloc p n = .ok (q, h')) : h.denied ≤ h'.denied := by
  have hfree : ∀ r, h.krealloc p n = .ok r → h.denied ≤ r.2.denied := by
    intro r hr
    have hfresh : ∀ r, (if n = 0 then .ok (.zeroSize, h) else if h.granted n then
        .ok (.cell h.blocks.length 0, h.push ((h.leftover n).map some))
        else .ok (.null, h.deny) : Except Fault (Ptr × Heap)) = .ok r → h.denied ≤ r.2.denied := by
      intro r hr
      split at hr
      · rw [← Except.ok.inj hr]
      · split at hr
        · rw [← Except.ok.inj hr, denied_push]
        · rw [← Except.ok.inj hr, denied_deny]
          exact Nat.le_succ _
    unfold krealloc at hr
    split at hr
    · exact hfresh r hr
    · exact hfresh r hr
    · split at hr
      · split at hr
        · cases hr
        · split at hr
          · exact Nat.le_of_eq (by rw [← Except.ok.inj hr, denied_retire])
          · split at hr
            · exact Nat.le_of_eq (by rw [← Except.ok.inj hr, denied_retire, denied_push])
            · rw [← Except.ok.inj hr, denied_deny]
              exact Nat.le_succ _
      · cases hr
  exact hfree _ hf

theorem denied_kfree (hf : h.kfree p = .ok h') : h'.denied = h.denied := by
  rcases kfree_ok hf with ⟨rfl, _⟩ | ⟨_, _, _, _, rfl⟩ <;> rfl

theorem denied_store {new : List UInt8} (hf : h.store p new = .ok h') :
    h'.denied = h.denied := by
  unfold store at hf
  split at hf
  · cases hf
  · split at hf
    · rw [← Except.ok.inj hf]
    · cases hf
  · split at hf
    · split at hf
      · rw [← Except.ok.inj hf]
        rfl
      · cases hf
    · cases hf
    · cases hf

theorem denied_strcat (hf : h.strcat p q = .ok h') : h'.denied = h.denied := by
  simp only [strcat, bind, Except.bind] at hf
  split at hf
  · cases hf
  · split at hf
    · cases hf
    · exact denied_store hf

theorem denied_strncpy (hf : h.strncpy p q n = .ok h') : h'.denied = h.denied := by
  simp only [strncpy, bind, Except.bind] at hf
  split at hf
  · cases hf
  · split at hf
    · cases hf
    · exact denied_store hf

end Denied

/-- Asking for memory changes nothing that is already there. -/
theorem view_kmalloc (hid : id < h.blocks.length) (n : Nat) :
    (h.kmalloc n).2.view id = h.view id := by
  unfold kmalloc
  split
  · rfl
  · split
    · simp [Nat.ne_of_lt hid]
    · rfl

/-- The same for strings, whatever the pointer. -/
theorem string_kmalloc {p : Ptr} {s : List UInt8} (hs : h.string p = .ok s) (n : Nat) :
    (h.kmalloc n).2.string p = .ok s := by
  unfold kmalloc
  split
  · exact hs
  · split
    · cases p with
      | null => simp [string, load, bind, Except.bind] at hs
      | zeroSize => simp [string, load, text, bind, Except.bind] at hs
      | cell id off =>
        simp only [string, load, bind, Except.bind, push] at hs ⊢
        cases hb : h.blocks[id]? with
        | none => simp [hb] at hs
        | some b =>
          have hid := (List.getElem?_eq_some_iff.mp hb).1
          rwa [List.getElem?_append_left hid]
    · exact hs

theorem strchr_cell {s : List UInt8} {c : UInt8} (hv : h.view id = some bs)
    (ht : text bs = .ok s) (hc : c ≠ 0) : h.strchr (.cell id 0) c = .ok (decide (c ∈ s)) := by
  simp [strchr, load_cell hv, contains_of_text ht hc, bind, Except.bind]

/-- `strcat` stays inside the destination when the terminator of the longer
string still has its place there. -/
theorem strcat_cell {s u : List UInt8} {rest : Bytes}
    (hdest : h.view id = some (s.map some ++ some 0 :: rest)) (hsrc : h.view j = some bs)
    (hs : 0 ∉ s) (hu : text bs = .ok u) (hfit : u.length ≤ rest.length) :
    h.strcat (.cell id 0) (.cell j 0) = .ok (h.put id
      (overwrite (s.map some ++ some 0 :: rest) s.length (u ++ [0]))) := by
  have hstore : h.store (.cell id s.length) (u ++ [0]) = .ok (h.put id
      (overwrite (s.map some ++ some 0 :: rest) s.length (u ++ [0]))) :=
    store_cell hdest (by simp; omega)
  have hd := string_cell hdest (text_append s rest hs)
  simp only [strcat, string_cell hsrc hu, hd, bind, Except.bind, Ptr.advance, Nat.zero_add]
  exact hstore

/-- Copying the rest of a string, without its terminator, to the start of a
block. -/
theorem strncpy_cell {s : List UInt8} {rest dest : Bytes} {off : Nat}
    (hdest : h.view id = some dest) (hsrc : h.view j = some (s.map some ++ some 0 :: rest))
    (hs : 0 ∉ s) (hoff : off ≤ s.length) (hn : n = s.length - off) (hfit : n ≤ dest.length) :
    h.strncpy (.cell id 0) (.cell j off) n =
      .ok (h.put id (overwrite dest 0 (s.drop off))) := by
  have hload : h.load (.cell j off) = .ok ((s.drop off).map some ++ some 0 :: rest) := by
    rw [load_cell hsrc, List.drop_append_of_le_length (by simpa using hoff), List.map_drop]
  have htext : text ((s.drop off).map some ++ some 0 :: rest) = .ok (s.drop off) :=
    text_append _ _ (fun hm => hs (List.mem_of_mem_drop hm))
  have hpad : padded n ((s.drop off).take n) = s.drop off := by
    rw [List.take_of_length_le (by simp [hn])]
    simp [padded, hn]
  simp only [strncpy, hload, bind, Except.bind, textUpTo_of_text _ htext, hpad]
  exact store_cell hdest (by simpa [← hn] using hfit)

/-- Appending to leftover bytes that have no terminator, or have it too late. -/
theorem strcat_overruns {u d : List UInt8} (hdest : h.view id = some (d.map some))
    (hsrc : h.view j = some bs) (hu : text bs = .ok u)
    (hover : ∀ s rest, d = s ++ 0 :: rest → 0 ∉ s → rest.length < u.length) :
    h.strcat (.cell id 0) (.cell j 0) = .error .outOfBounds := by
  have hload : h.load (.cell id 0) = .ok (d.map some) := load_cell hdest 0
  by_cases h0 : 0 ∈ d
  · obtain ⟨s, rest, rfl, hs⟩ := List.eq_append_cons_of_mem h0
    have htext : h.string (.cell id 0) = .ok s := by
      rw [List.map_append] at hdest
      exact string_cell hdest (text_append s (rest.map some) hs)
    have hfit := hover s rest rfl hs
    have hstore : h.store (.cell id s.length) (u ++ [0]) = .error .outOfBounds := by
      simp only [store, view_eq_some_iff.mp hdest]
      rw [if_neg]
      simp only [List.length_append, List.length_map, List.length_cons, List.length_nil]
      omega
    simp only [strcat, string_cell hsrc hu, htext, bind, Except.bind, Ptr.advance, Nat.zero_add]
    exact hstore
  · have htext : h.string (.cell id 0) = .error .outOfBounds := by
      simp [string, hload, text_of_no_nul h0, bind, Except.bind]
    simp only [strcat, string_cell hsrc hu, htext, bind, Except.bind]

end Frame

end Heap

end Aesd.Base
