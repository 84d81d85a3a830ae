import Mathlib.Data.List.TakeWhile

namespace Aesd.Base

/-- What a C program must not do to memory, and a loop that has not ended in
the number of rounds it was given. The run ends there. -/
inductive Fault where
  | nullDeref
  | outOfBounds
  | uninitialised
  | useAfterFree
  | badFree
  | stuck
  deriving DecidableEq, Repr

/-- Memory from some address to the end of its object. A byte that has been
allocated but not written yet is `none`. -/
abbrev Bytes := List (Option UInt8)

namespace CString

/-- What every string function reads: the bytes before the terminator, which
must lie inside the object and behind initialised bytes only. -/
def text : Bytes → Except Fault (List UInt8)
  | [] => .error .outOfBounds
  | none :: _ => .error .uninitialised
  | some b :: rest =>
    if b = 0 then .ok [] else
      match text rest with
      | .ok s => .ok (b :: s)
      | .error e => .error e

/-- The search of `strchr`. It stops at the first hit, so memory behind one is
not looked at. -/
def contains (c : UInt8) : Bytes → Except Fault Bool
  | [] => .error .outOfBounds
  | none :: _ => .error .uninitialised
  | some b :: rest => if b = c then .ok true else if b = 0 then .ok false else contains c rest

/-- The source side of `strncpy`: at most `n` bytes, fewer if a terminator
comes first. -/
def textUpTo : Nat → Bytes → Except Fault (List UInt8)
  | 0, _ => .ok []
  | _ + 1, [] => .error .outOfBounds
  | _ + 1, none :: _ => .error .uninitialised
  | n + 1, some b :: rest =>
    if b = 0 then .ok [] else
      match textUpTo n rest with
      | .ok s => .ok (b :: s)
      | .error e => .error e

/-- What `strncpy` stores: the source's bytes, padded with terminators. -/
def padded (n : Nat) (s : List UInt8) : List UInt8 := s ++ List.replicate (n - s.length) 0

/-- A copy of `n` bytes out of an object. -/
def raw : Nat → Bytes → Except Fault (List UInt8)
  | 0, _ => .ok []
  | _ + 1, [] => .error .outOfBounds
  | _ + 1, none :: _ => .error .uninitialised
  | n + 1, some b :: rest =>
    match raw n rest with
    | .ok s => .ok (b :: s)
    | .error e => .error e

/-- The rest of a token, and the memory that the next search starts from: behind
the delimiter, or at the terminator. -/
def token (delim : UInt8) : Bytes → Except Fault (List UInt8 × Bytes)
  | [] => .error .outOfBounds
  | none :: _ => .error .uninitialised
  | some b :: rest =>
    if b = 0 then .ok ([], some b :: rest)
    else if b = delim then .ok ([], rest)
    else match token delim rest with
      | .ok (t, next) => .ok (b :: t, next)
      | .error e => .error e

/-- The search of `strtok` with one delimiter, from the string or from where the
last search left off. There is no token if only delimiters are left. -/
def strtok (delim : UInt8) : Bytes → Except Fault (Option (List UInt8) × Bytes)
  | [] => .error .outOfBounds
  | none :: _ => .error .uninitialised
  | some b :: rest =>
    if b = 0 then .ok (none, some b :: rest)
    else if b = delim then strtok delim rest
    else match token delim (some b :: rest) with
      | .ok (t, next) => .ok (some t, next)
      | .error e => .error e

def isSpace (b : UInt8) : Bool := b == 32 || (9 ≤ b && b ≤ 13)

def isDigit (b : UInt8) : Bool := 48 ≤ b && b ≤ 57

/-- The number at the start of a string, for numbers that fit. -/
def atoi (s : List UInt8) : Int :=
  let s := s.dropWhile isSpace
  let digits := (if s.head? = some 43 ∨ s.head? = some 45 then s.tail else s).takeWhile isDigit
  let n : Nat := digits.foldl (fun n b => 10 * n + (b.toNat - 48)) 0
  if s.head? = some 45 then -n else n

/-- Writing over part of an object. -/
def overwrite (bs : Bytes) (off : Nat) (new : List UInt8) : Bytes :=
  bs.take off ++ new.map some ++ bs.drop (off + new.length)

/-- Copying a string with its terminator to an offset of an object. -/
def strcpy (dest : Bytes) (off : Nat) (s : List UInt8) : Except Fault Bytes :=
  if off + s.length + 1 ≤ dest.length then .ok (overwrite dest off (s ++ [0]))
  else .error .outOfBounds

/-- A call of `strtok` on the object `bs`, which goes on at offset `off`: the token, the
offset to go on at, and the object, where the delimiter behind the token has become a
terminator. -/
def strtokAt (delim : UInt8) (bs : Bytes) (off : Nat) :
    Except Fault (Option (List UInt8) × Nat × Bytes) := do
  let (t, next) ← strtok delim (bs.drop off)
  let off := bs.length - next.length
  if t.isSome ∧ bs[off - 1]? = some (some delim) then return (t, off, overwrite bs (off - 1) [0])
  return (t, off, bs)

/-- A C string is its bytes, none of them the terminator, then the terminator. -/
theorem text_ok_iff (bs : Bytes) (s : List UInt8) :
    text bs = .ok s ↔ 0 ∉ s ∧ ∃ rest, bs = s.map some ++ some 0 :: rest := by
  induction bs generalizing s with
  | nil => simp [text]
  | cons b bs ih =>
    cases b with
    | none =>
      simp only [text, reduceCtorEq, false_iff, not_and, not_exists]
      intro _ rest he
      cases s <;> simp at he
    | some b =>
      by_cases hb : b = 0
      · subst b
        cases s with
        | nil => simp [text]
        | cons c s =>
          simp only [text, ↓reduceIte, Except.ok.injEq, reduceCtorEq, false_iff, not_and,
            not_exists]
          intro h0 rest he
          simp only [List.map_cons, List.cons_append, List.cons.injEq, Option.some.injEq] at he
          exact h0 (by simp [he.1])
      · cases s with
        | nil =>
          simp only [text, hb, ↓reduceIte]
          cases text bs <;> simp [hb]
        | cons c s =>
          simp only [text, hb, ↓reduceIte]
          have hs := ih s
          cases ht : text bs with
          | error e =>
            rw [ht] at hs
            simp only [reduceCtorEq, false_iff] at hs ⊢
            rintro ⟨h0, rest, he⟩
            simp only [List.map_cons, List.cons_append, List.cons.injEq] at he
            exact hs ⟨fun hm => h0 (List.mem_cons_of_mem _ hm), rest, he.2⟩
          | ok u =>
            rw [ht] at hs
            simp only [Except.ok.injEq] at hs ⊢
            constructor
            · intro he
              obtain ⟨rfl, rfl⟩ := List.cons.inj he
              obtain ⟨h0, rest, hr⟩ := hs.mp rfl
              exact ⟨by simpa [eq_comm, h0] using hb, rest, by simp [hr]⟩
            · rintro ⟨h0, rest, he⟩
              simp only [List.map_cons, List.cons_append, List.cons.injEq, Option.some.injEq] at he
              obtain ⟨rfl, he⟩ := he
              rw [hs.mpr ⟨fun hm => h0 (List.mem_cons_of_mem _ hm), rest, he⟩]

theorem text_append (s : List UInt8) (rest : Bytes) (h : 0 ∉ s) :
    text (s.map some ++ some 0 :: rest) = .ok s :=
  (text_ok_iff _ _).mpr ⟨h, rest, rfl⟩

theorem text_drop {bs : Bytes} {s : List UInt8} {n : Nat} (h : text bs = .ok s)
    (hn : n ≤ s.length) : text (bs.drop n) = .ok (s.drop n) := by
  obtain ⟨h0, rest, rfl⟩ := (text_ok_iff _ _).mp h
  rw [List.drop_append_of_le_length (by simpa using hn), ← List.map_drop]
  exact text_append _ _ (fun hm => h0 (List.mem_of_mem_drop hm))

/-- Bytes without a terminator are read to their end and beyond. -/
theorem text_append_error {s : List UInt8} {rest : Bytes} {e : Fault} (h : 0 ∉ s)
    (hrest : text rest = .error e) : text (s.map some ++ rest) = .error e := by
  induction s with
  | nil => exact hrest
  | cons b s ih =>
    obtain ⟨hb, hs⟩ : ¬ 0 = b ∧ 0 ∉ s := by simpa using h
    simp [text, Ne.symm hb, ih hs]

theorem text_of_no_nul {s : List UInt8} (h : 0 ∉ s) : text (s.map some) = .error .outOfBounds := by
  rw [← List.append_nil (s.map some)]
  exact text_append_error h rfl

/-- Of a zero-padded copy of counted data only the part before the first NUL
is visible as a string. -/
theorem text_padded (data : List UInt8) (rest : Bytes) :
    text (data.map some ++ some 0 :: rest) = .ok (data.takeWhile (· != 0)) := by
  induction data with
  | nil => simp [text]
  | cons b data ih =>
    by_cases hb : b = 0
    · simp [text, hb]
    · simp [text, hb, ih]

theorem takeWhile_no_nul (data : List UInt8) : 0 ∉ data.takeWhile (· != 0) := by
  intro h
  have := List.mem_takeWhile_imp h
  simp at this

theorem takeWhile_of_no_nul (data : List UInt8) (h : 0 ∉ data) :
    data.takeWhile (· != 0) = data := by
  apply List.takeWhile_eq_self_iff.mpr
  intro b hb
  simpa using ne_of_mem_of_not_mem hb h

theorem takeWhile_append_of_no_nul {data : List UInt8} (h : 0 ∉ data) (rest : List UInt8) :
    (data ++ rest).takeWhile (· != 0) = data ++ rest.takeWhile (· != 0) := by
  apply List.takeWhile_append_of_pos
  intro b hb
  simpa using ne_of_mem_of_not_mem hb h

/-- Nothing behind a NUL is visible. -/
theorem takeWhile_append_of_nul {data : List UInt8} (h : 0 ∈ data) (rest : List UInt8) :
    (data ++ rest).takeWhile (· != 0) = data.takeWhile (· != 0) := by
  rw [List.takeWhile_append, if_neg]
  intro hlen
  have hall := (List.takeWhile_prefix (· != 0)).eq_of_length hlen
  rw [← hall] at h
  exact takeWhile_no_nul data h

/-- Searching a string looks at the string only. -/
theorem contains_of_text {bs : Bytes} {s : List UInt8} {c : UInt8}
    (h : text bs = .ok s) (hc : c ≠ 0) : contains c bs = .ok (decide (c ∈ s)) := by
  obtain ⟨h0, rest, rfl⟩ := (text_ok_iff bs s).mp h
  clear h
  induction s with
  | nil => simp [contains, hc.symm]
  | cons b s ih =>
    have hb : b ≠ 0 := fun he => h0 (by simp [he])
    have hs := ih (fun hm => h0 (List.mem_cons_of_mem _ hm))
    by_cases he : b = c
    · simp [contains, he]
    · simp [contains, he, hb, hs, Ne.symm he]

/-- A hit before the first terminator ends the search. -/
theorem contains_hit {c : UInt8} {s : List UInt8} (hc : c ∈ s) (h0 : 0 ∉ s) (rest : List UInt8) :
    contains c ((s ++ rest).map some) = .ok true := by
  induction s with
  | nil => simp at hc
  | cons b s ih =>
    have hb : b ≠ 0 := fun he => h0 (by simp [he])
    by_cases he : b = c
    · simp [contains, he]
    · have hs := ih (by simpa [Ne.symm he] using hc) (fun hm => h0 (List.mem_cons_of_mem _ hm))
      simp only [List.cons_append, List.map_cons, contains, he, hb, ↓reduceIte]
      exact hs

/-- Without one there has to be a terminator. -/
theorem contains_miss {c : UInt8} {s : List UInt8} (hc : c ∉ s) (h0 : 0 ∈ s) :
    contains c (s.map some) = .ok false := by
  induction s with
  | nil => simp at h0
  | cons b s ih =>
    have he : b ≠ c := fun he => hc (by simp [he])
    by_cases hb : b = 0
    · subst hb
      simp [contains, he]
    · have hs := ih (fun hm => hc (List.mem_cons_of_mem _ hm)) (by simpa [Ne.symm hb] using h0)
      simp only [List.map_cons, contains, he, hb, ↓reduceIte]
      exact hs

theorem textUpTo_of_text {bs : Bytes} {s : List UInt8} (n : Nat)
    (h : text bs = .ok s) : textUpTo n bs = .ok (s.take n) := by
  obtain ⟨h0, rest, rfl⟩ := (text_ok_iff bs s).mp h
  clear h
  induction s generalizing n with
  | nil => cases n <;> simp [textUpTo]
  | cons b s ih =>
    have hb : b ≠ 0 := fun he => h0 (by simp [he])
    cases n with
    | zero => simp [textUpTo]
    | succ n => simp [textUpTo, hb, ih n (fun hm => h0 (List.mem_cons_of_mem _ hm))]

/-- The search succeeds exactly if there is a hit before any terminator. -/
theorem contains_true_iff {c : UInt8} (hc : c ≠ 0) (s : List UInt8) :
    contains c (s.map some) = .ok true ↔ c ∈ s.takeWhile (· != 0) := by
  induction s with
  | nil => simp [contains]
  | cons b s ih =>
    by_cases he : b = c
    · simp [contains, he, hc]
    · by_cases hb : b = 0
      · simp [contains, hb, hc.symm]
      · simp [contains, he, hb, ih, Ne.symm he]

/-- It comes to the end of the string exactly if there is a terminator. -/
theorem contains_false_iff {c : UInt8} (hc : c ≠ 0) (s : List UInt8) :
    contains c (s.map some) = .ok false ↔ 0 ∈ s ∧ c ∉ s.takeWhile (· != 0) := by
  induction s with
  | nil => simp [contains]
  | cons b s ih =>
    by_cases he : b = c
    · simp [contains, he, hc]
    · by_cases hb : b = 0
      · simp [contains, hb, hc.symm]
      · simp [contains, he, hb, ih, Ne.symm he, Ne.symm hb]

/-- A token that ends in the bytes at hand. -/
theorem token_hit {delim : UInt8} {s : List UInt8} (h0 : 0 ∉ s) (hd : delim ∈ s) (rest : Bytes) :
    token delim (s.map some ++ rest) = .ok (s.takeWhile (· != delim),
      (s.dropWhile (· != delim)).tail.map some ++ rest) := by
  induction s with
  | nil => simp at hd
  | cons b s ih =>
    have hb : b ≠ 0 := fun he => h0 (by simp [he])
    by_cases he : b = delim
    · subst he
      simp [token, hb]
    · have hs := ih (fun hm => h0 (List.mem_cons_of_mem _ hm)) (by simpa [Ne.symm he] using hd)
      simp [token, hb, he, hs]

/-- One that does not goes on behind them. -/
theorem token_miss {delim : UInt8} {s : List UInt8} (h0 : 0 ∉ s) (hd : delim ∉ s) (rest : Bytes) :
    token delim (s.map some ++ rest) = match token delim rest with
      | .ok (t, next) => .ok (s ++ t, next)
      | .error e => .error e := by
  induction s with
  | nil =>
    simp only [List.map_nil, List.nil_append]
    split <;> simp_all
  | cons b s ih =>
    have hb : b ≠ 0 := fun he => h0 (by simp [he])
    have he : b ≠ delim := fun he => hd (by simp [he])
    have hs := ih (fun hm => h0 (List.mem_cons_of_mem _ hm))
      (fun hm => hd (List.mem_cons_of_mem _ hm))
    simp only [List.map_cons, List.cons_append, token, hb, he, ↓reduceIte, hs]
    cases token delim rest <;> rfl

/-- Delimiters in front of a token are skipped. -/
theorem strtok_skip {delim : UInt8} (hdelim : delim ≠ 0) (s : List UInt8) (rest : Bytes) :
    strtok delim (s.map some ++ rest) =
      strtok delim ((s.dropWhile (· == delim)).map some ++ rest) := by
  induction s with
  | nil => rfl
  | cons b s ih =>
    by_cases he : b = delim
    · subst he
      simpa [strtok, hdelim] using ih
    · simp [he]

/-- The first other byte starts a token. -/
theorem strtok_eq_token {delim : UInt8} (hdelim : delim ≠ 0) {s : List UInt8} (h0 : 0 ∉ s)
    (hne : s.dropWhile (· == delim) ≠ []) (rest : Bytes) :
    strtok delim (s.map some ++ rest) =
      match token delim ((s.dropWhile (· == delim)).map some ++ rest) with
      | .ok (t, next) => .ok (some t, next)
      | .error e => .error e := by
  rw [strtok_skip hdelim]
  have h0' : 0 ∉ s.dropWhile (· == delim) := fun hm => h0 ((List.dropWhile_sublist _).subset hm)
  have hhead := List.head?_dropWhile_not (· == delim) s
  cases hs : s.dropWhile (· == delim) with
  | nil => exact absurd hs hne
  | cons b t =>
    have hb : b ≠ delim := by simpa [hs] using hhead
    have hz : b ≠ 0 := fun he => h0' (by simp [hs, he])
    simp only [List.map_cons, List.cons_append, strtok, hz, hb, ↓reduceIte]

/-- A token ends where the memory behind it says so at once. -/
theorem strtok_word {delim : UInt8} {a : List UInt8} {rest next : Bytes} (hdelim : delim ≠ 0)
    (h0 : 0 ∉ a) (ha : delim ∉ a) (hne : a ≠ []) (hend : token delim rest = .ok ([], next)) :
    strtok delim (a.map some ++ rest) = .ok (some a, next) := by
  have hskip : a.dropWhile (· == delim) = a := by
    obtain ⟨x, a', rfl⟩ := List.exists_cons_of_ne_nil hne
    have hx : x ≠ delim := fun he => ha (by simp [he])
    simp [hx]
  rw [strtok_eq_token hdelim h0 (by rwa [hskip]), hskip, token_miss h0 ha, hend]
  simp

/-- A search that ends before uninitialised memory does not depend on what comes
there. -/
theorem token_local {delim : UInt8} {bs next : Bytes} {t : List UInt8} {n : Nat}
    (h : token delim (bs ++ List.replicate n none) = .ok (t, next)) :
    ∃ r, next = r ++ List.replicate n none ∧
      ∀ rest, token delim (bs ++ rest) = .ok (t, r ++ rest) := by
  induction bs generalizing t with
  | nil => cases n <;> cases h
  | cons b bs ih =>
    cases b with
    | none => cases h
    | some b =>
      by_cases h0 : b = 0
      · simp only [List.cons_append, token, h0, ↓reduceIte] at h ⊢
        obtain ⟨rfl, rfl⟩ := Prod.mk.inj (Except.ok.inj h)
        exact ⟨some 0 :: bs, rfl, fun _ => rfl⟩
      by_cases hd : b = delim
      · simp only [List.cons_append, token, h0, if_pos hd, ↓reduceIte] at h ⊢
        obtain ⟨rfl, rfl⟩ := Prod.mk.inj (Except.ok.inj h)
        exact ⟨bs, rfl, fun _ => rfl⟩
      · simp only [List.cons_append, token, h0, hd, ↓reduceIte] at h ⊢
        split at h
        · rename_i ht
          obtain ⟨rfl, rfl⟩ := Prod.mk.inj (Except.ok.inj h)
          obtain ⟨r, hr, hall⟩ := ih ht
          exact ⟨r, hr, fun rest => by rw [hall rest]⟩
        · cases h

theorem strtok_local {delim : UInt8} {bs next : Bytes} {t : Option (List UInt8)} {n : Nat}
    (h : strtok delim (bs ++ List.replicate n none) = .ok (t, next)) :
    ∃ r, next = r ++ List.replicate n none ∧
      ∀ rest, strtok delim (bs ++ rest) = .ok (t, r ++ rest) := by
  induction bs with
  | nil => cases n <;> cases h
  | cons b bs ih =>
    cases b with
    | none => cases h
    | some b =>
      by_cases h0 : b = 0
      · simp only [List.cons_append, strtok, h0, ↓reduceIte] at h ⊢
        obtain ⟨rfl, rfl⟩ := Prod.mk.inj (Except.ok.inj h)
        exact ⟨some 0 :: bs, rfl, fun _ => rfl⟩
      by_cases hd : b = delim
      · simp only [List.cons_append, strtok, h0, if_pos hd, ↓reduceIte] at h ⊢
        exact ih h
      · simp only [List.cons_append, strtok, h0, hd, ↓reduceIte] at h ⊢
        split at h
        · rename_i ht
          obtain ⟨rfl, rfl⟩ := Prod.mk.inj (Except.ok.inj h)
          rw [← List.cons_append] at ht
          obtain ⟨r, hr, hall⟩ := token_local ht
          exact ⟨r, hr, fun rest => by rw [← List.cons_append, hall rest]⟩
        · cases h

theorem raw_append (s : List UInt8) (rest : Bytes) : raw s.length (s.map some ++ rest) = .ok s := by
  induction s with
  | nil => simp [raw]
  | cons b s ih => simp [raw, ih]

/-- Appending to a string in place: the new text with its own terminator is
laid over the old terminator and what follows it. -/
theorem overwrite_append_in_place (s u : List UInt8) (rest : Bytes) :
    overwrite (s.map some ++ some 0 :: rest) s.length (u ++ [0]) =
      (s ++ u).map some ++ some 0 :: rest.drop u.length := by
  simp [overwrite, List.drop_append]

theorem length_overwrite {bs : Bytes} {off : Nat} {new : List UInt8}
    (h : off + new.length ≤ bs.length) : (overwrite bs off new).length = bs.length := by
  simp [overwrite]
  omega

theorem drop_overwrite {bs : Bytes} {off n : Nat} {new : List UInt8}
    (h : off + new.length ≤ bs.length) (hn : off + new.length ≤ n) :
    (overwrite bs off new).drop n = bs.drop n := by
  have hfront : (bs.take off ++ new.map some).length = off + new.length := by
    simp
    omega
  rw [overwrite, List.drop_append, hfront, List.drop_eq_nil_of_le (by omega), List.nil_append,
    List.drop_drop]
  congr 1
  omega

/-- Only the byte behind the token may change, so the search goes on in the same bytes. -/
theorem strtokAt_eq {delim : UInt8} {bs next : Bytes} {off : Nat} (t : Option (List UInt8))
    (rest : Bytes) (hoff : bs.drop off = rest ++ next) (hne : t.isSome → rest ≠ [])
    (ht : strtok delim (rest ++ next) = .ok (t, next)) :
    ∃ bs' off', strtokAt delim bs off = .ok (t, off', bs') ∧ bs'.length = bs.length ∧
      bs'.drop off' = next := by
  have hsuffix : next <:+ bs := by
    have hrest : next <:+ bs.drop off := hoff ▸ List.suffix_append rest next
    exact hrest.trans (List.drop_suffix off bs)
  have hnext := (List.suffix_iff_eq_drop.mp hsuffix).symm
  have hlen := congrArg List.length hoff
  rw [List.length_drop, List.length_append] at hlen
  simp only [strtokAt, hoff, ht, bind, Except.bind, pure, Except.pure]
  split
  · rename_i hword
    have hin : bs.length - next.length - 1 < bs.length :=
      (List.getElem?_eq_some_iff.mp hword.2).1
    have hpos : 0 < rest.length := List.length_pos_iff.mpr (hne hword.1)
    refine ⟨_, _, rfl, length_overwrite hin, ?_⟩
    rw [drop_overwrite hin (by simp only [List.length_singleton]; omega), hnext]
  · exact ⟨bs, _, rfl, rfl, hnext⟩

theorem strcpy_fits {dest : Bytes} {s : List UInt8} (h0 : 0 ∉ s) (h : s.length < dest.length) :
    ∃ bs, strcpy dest 0 s = .ok bs ∧ text bs = .ok s := by
  refine ⟨_, if_pos (by omega), ?_⟩
  simpa [overwrite] using text_append s _ h0

theorem strcpy_overruns {dest : Bytes} {s : List UInt8} (h : ¬ s.length < dest.length) :
    strcpy dest 0 s = .error .outOfBounds := if_neg (by omega)

end CString

end Aesd.Base
