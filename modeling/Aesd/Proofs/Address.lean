import Aesd.Proofs.SeekText
import Aesd.Server.Address

namespace Aesd.Proofs
open Base Server CString

section Split
variable {ts : List (List UInt8)} {bs rest : Bytes} {off : Nat}

/-- What can stand between dots. -/
structure Word (t : List UInt8) : Prop where
  nonempty : t ≠ []
  nul : 0 ∉ t
  dot : dot ∉ t

/-- Words with dots between them, as a string in memory. -/
def joined (ts : List (List UInt8)) (rest : Bytes) : Bytes :=
  ([dot].intercalate ts).map some ++ some 0 :: rest

/-- One call of `strtok` takes one word off. -/
theorem strtokAt_joined (hts : ∀ t ∈ ts, Word t) (hoff : bs.drop off = joined ts rest) :
    ∃ bs' off', strtokAt dot bs off = .ok (ts.head?, off', bs') ∧ bs'.length = bs.length ∧
      bs'.drop off' = joined ts.tail rest := by
  have hdot : dot ≠ 0 := by decide
  cases ts with
  | nil => exact strtokAt_eq none [] hoff nofun rfl
  | cons t ts =>
    obtain ⟨hw, hts⟩ := List.forall_mem_cons.mp hts
    cases ts with
    | nil =>
      refine strtokAt_eq (some t) (t.map some) ?_ ?_ ?_
      · simpa [joined] using hoff
      · intro _
        simpa using hw.nonempty
      · exact strtok_word hdot hw.nul hw.dot hw.nonempty rfl
    | cons u us =>
      refine strtokAt_eq (some t) ((t ++ [dot]).map some) ?_ ?_ ?_
      · simpa [joined] using hoff
      · simp
      · simpa using strtok_word hdot hw.nul hw.dot hw.nonempty rfl

/-- The copies that the loop makes of its tokens. -/
def place : List (List UInt8) → Bytes → Nat → Except Fault Bytes
  | [], tempValues, _ => .ok tempValues
  | t :: ts, tempValues, count => do
    place ts (← strcpy tempValues (3 * (count - 1)) t) (count + 1)

/-- The run of the loop over a string of words. -/
theorem splitLoop_joined {fuel : Nat} (count : Nat) (temp : Bytes) (hts : ∀ t ∈ ts, Word t)
    (hoff : bs.drop off = joined ts.tail rest) (hfuel : ts.length < fuel) :
    ∃ bs', bs'.length = bs.length ∧ splitLoop fuel bs ts.head? off temp count =
      (place ts temp count).map (fun temp => (bs', temp)) := by
  induction ts generalizing bs off fuel count temp with
  | nil =>
    obtain ⟨extra, rfl⟩ := Nat.exists_eq_add_of_lt hfuel
    exact ⟨bs, rfl, rfl⟩
  | cons t ts ih =>
    obtain ⟨extra, rfl⟩ := Nat.exists_eq_add_of_lt hfuel
    obtain ⟨_, hts⟩ := List.forall_mem_cons.mp hts
    obtain ⟨bs₁, off₁, htok, hlen₁, hoff₁⟩ := strtokAt_joined hts hoff
    cases hcopy : strcpy temp (3 * (count - 1)) t with
    | error e =>
      refine ⟨bs, rfl, ?_⟩
      simp [splitLoop, place, hcopy, bind, Except.bind, Except.map]
    | ok temp' =>
      have hmore : ts.length < ts.length + 1 + extra := by omega
      obtain ⟨bs', hlen, hrun⟩ := ih (count + 1) temp' hts hoff₁ hmore
      refine ⟨bs', hlen.trans hlen₁, ?_⟩
      simp [splitLoop, place, hcopy, htok, bind, Except.bind, hrun]

end Split

section Rows
variable {t : List UInt8} {ts : List (List UInt8)}

/-- What is left of a word in its row. A word of three bytes has lost its terminator to
the next row. -/
def row (t : List UInt8) : Bytes := ((t ++ [0]).map some ++ [none]).take 3

theorem length_row (hne : t ≠ []) : (row t).length = 3 := by
  have hpos := List.length_pos_iff.mpr hne
  simp only [row, List.length_take, List.length_append, List.length_map, List.length_singleton]
  omega

theorem row_of_short (hne : t ≠ []) (hshort : t.length ≤ 2) :
    row t = t.map some ++ some 0 :: List.replicate (2 - t.length) none := by
  have hpos := List.length_pos_iff.mpr hne
  have hleft : 3 - t.length = 2 - t.length + 1 := by omega
  have hblank : (List.replicate 1 (none : Option UInt8)).take (2 - t.length) =
      List.replicate (2 - t.length) none := by
    rw [List.take_replicate, Nat.min_eq_left (by omega)]
  rw [row, List.map_append, List.append_assoc, List.take_append, List.length_map, hleft,
    List.take_of_length_le (by rw [List.length_map]; omega), ← hblank]
  rfl

theorem row_of_long (hlong : t.length = 3) : row t = t.map some := by
  rw [row, List.map_append, List.append_assoc]
  exact List.take_left' (by rw [List.length_map, hlong])

/-- A copy into the row behind `front`. Of the bytes behind only the first can have been
written before, and by the copy of a word that was too long for its own row. -/
theorem strcpy_row (front : Bytes) {behind : Bytes} {n : Nat} (hlen : behind.length = n + 3)
    (htail : behind.tail = List.replicate (n + 2) none) (hne : t ≠ []) (hfits : t.length ≤ 3)
    (hroom : t.length ≤ n + 2) :
    ∃ behind', strcpy (front ++ behind) front.length t = .ok (front ++ row t ++ behind') ∧
      behind'.length = n ∧ behind'.tail = List.replicate (n - 1) none := by
  have hover : strcpy (front ++ behind) front.length t =
      .ok (front ++ ((t ++ [0]).map some ++ List.replicate (n + 2 - t.length) none)) := by
    have hdrop : behind.drop (t.length + 1) = List.replicate (n + 2 - t.length) none := by
      rw [← List.drop_tail, htail, List.drop_replicate]
    rw [strcpy, if_pos (by rw [List.length_append]; omega)]
    simp [overwrite, hdrop]
  rw [hover]
  by_cases hshort : t.length ≤ 2
  · have hpos := List.length_pos_iff.mpr hne
    have hblank : 2 - t.length + n = n + 2 - t.length := by omega
    refine ⟨List.replicate n none, ?_, List.length_replicate, List.tail_replicate⟩
    rw [row_of_short hne hshort, ← hblank, ← List.replicate_append_replicate]
    simp
  · -- the terminator is the first byte of the next row, so there has to be one
    obtain ⟨m, rfl⟩ : ∃ m, n = m + 1 := ⟨n - 1, by omega⟩
    have hlong : t.length = 3 := by omega
    refine ⟨some 0 :: List.replicate m none, ?_, by simp, by simp⟩
    simp [row_of_long hlong, hlong]

/-- The run of the copies: a row for each word, unless the last one is too long for its
row. -/
theorem place_eq {front behind : Bytes} {count : Nat} (hts : ∀ t ∈ ts, t ≠ [] ∧ t.length ≤ 3)
    (hfront : front.length = 3 * count) (hlen : behind.length = 3 * ts.length)
    (htail : behind.tail = List.replicate (3 * ts.length - 1) none) :
    place ts (front ++ behind) (count + 1) =
      if (ts.getLastD []).length ≤ 2 then .ok (front ++ (ts.map row).flatten)
      else .error .outOfBounds := by
  induction ts generalizing front behind count with
  | nil =>
    obtain rfl := List.length_eq_zero_iff.mp hlen
    rfl
  | cons t ts ih =>
    obtain ⟨⟨hne, hfits⟩, hts⟩ := List.forall_mem_cons.mp hts
    rw [List.length_cons] at hlen htail
    rw [place, Nat.add_sub_cancel, ← hfront]
    by_cases hroom : t.length ≤ 3 * ts.length + 2
    · obtain ⟨behind', hcopy, hlen', htail'⟩ := strcpy_row front hlen htail hne hfits hroom
      have hlast : ((t :: ts).getLastD []).length ≤ 2 ↔ (ts.getLastD []).length ≤ 2 := by
        cases ts with
        | nil => simpa using hroom
        | cons u us => rfl
      have hfront' : (front ++ row t).length = 3 * (count + 1) := by
        rw [List.length_append, length_row hne]
        omega
      rw [hcopy]
      change place ts (front ++ row t ++ behind') (count + 1 + 1) = _
      rw [ih hts hfront' hlen' htail', List.append_assoc]
      simp only [hlast, List.map_cons, List.flatten_cons]
    · have hnil : ts = [] := by
        apply List.length_eq_zero_iff.mp
        omega
      subst hnil
      rw [strcpy, if_neg (by rw [List.length_append]; omega)]
      have hlong : ¬ ([t].getLastD []).length ≤ 2 := by simpa using hroom
      rw [if_neg hlong]
      rfl

/-- What is read from a row on. -/
def runOn : List (List UInt8) → List UInt8
  | [] => []
  | t :: ts => if t.length ≤ 2 then t else t ++ runOn ts

theorem text_row_short (hw : Word t) (hshort : t.length ≤ 2) (behind : Bytes) :
    text (row t ++ behind) = .ok t := by
  rw [row_of_short hw.nonempty hshort, List.append_assoc]
  exact text_append t _ hw.nul

theorem text_row_long (hw : Word t) (hlong : t.length = 3) {behind : Bytes} {s : List UInt8}
    (hs : text behind = .ok s) : text (row t ++ behind) = .ok (t ++ s) := by
  obtain ⟨h0, rest, rfl⟩ := (text_ok_iff behind s).mp hs
  rw [row_of_long hlong, ← List.append_assoc, ← List.map_append]
  exact text_append _ rest (by simp [hw.nul, h0])

theorem text_rows (hts : ∀ t ∈ ts, Word t ∧ t.length ≤ 3) (hne : ts ≠ [])
    (hlast : (ts.getLastD []).length ≤ 2) : text (ts.map row).flatten = .ok (runOn ts) := by
  induction ts with
  | nil => exact absurd rfl hne
  | cons t ts ih =>
    obtain ⟨⟨hw, hfits⟩, hts⟩ := List.forall_mem_cons.mp hts
    rw [List.map_cons, List.flatten_cons, runOn]
    split
    · rename_i hshort
      exact text_row_short hw hshort _
    · rename_i hlong
      cases ts with
      | nil => exact absurd hlast hlong
      | cons u us => exact text_row_long hw (by omega) (ih hts (by simp) hlast)

theorem drop_rows (hne : t ≠ []) (ts : List (List UInt8)) (n : Nat) :
    ((t :: ts).map row).flatten.drop (n + 3) = (ts.map row).flatten.drop n := by
  rw [List.map_cons, List.flatten_cons, List.drop_append, length_row hne, Nat.add_sub_cancel,
    List.drop_eq_nil_of_le (by rw [length_row hne]; omega), List.nil_append]

end Rows

section Flip
variable {a b c d : List UInt8}

/-- What is printed for four words: each from its row on. -/
def printed (a b c d : List UInt8) : List UInt8 :=
  [dot].intercalate [runOn [d], runOn [c, d], runOn [b, c, d], runOn [a, b, c, d]]

theorem reversed_rows (hts : ∀ t ∈ [a, b, c, d], Word t ∧ t.length ≤ 3) (hd : d.length ≤ 2) :
    reversed ([a, b, c, d].map row).flatten = .ok (printed a b c d) := by
  have hbcd := (List.forall_mem_cons.mp hts).2
  have hcd := (List.forall_mem_cons.mp hbcd).2
  have hjustd := (List.forall_mem_cons.mp hcd).2
  have ha := (hts a (by simp)).1.nonempty
  have hb := (hts b (by simp)).1.nonempty
  have hc := (hts c (by simp)).1.nonempty
  rw [reversed, drop_rows ha _ 6, drop_rows hb _ 3, drop_rows hc _ 0, drop_rows ha _ 3,
    drop_rows hb _ 0, drop_rows ha _ 0, List.drop_zero, List.drop_zero, List.drop_zero,
    text_rows hjustd (by simp) hd, text_rows hcd (by simp) hd, text_rows hbcd (by simp) hd,
    text_rows hts (by simp) hd]
  rfl

/-- All of the function on a string of four words. Only how long it is matters of what the
argument holds before the copy back. -/
theorem flipIpAddr_eq (hts : ∀ t ∈ [a, b, c, d], Word t ∧ t.length ≤ 3) (rest : Bytes) :
    ∃ split, split.length = (joined [a, b, c, d] rest).length ∧
      flipIpAddr (joined [a, b, c, d] rest) =
        if d.length ≤ 2 then printBack split (printed a b c d) else .error .outOfBounds := by
  have hw : ∀ t ∈ [a, b, c, d], Word t := fun t ht => (hts t ht).1
  have hlong : 4 < (joined [a, b, c, d] rest).length + 1 := by
    simp [joined]
    omega
  have hstart : (joined [a, b, c, d] rest).drop 0 = joined [a, b, c, d] rest := rfl
  obtain ⟨bs, off, htok, hlen, hoff⟩ := strtokAt_joined hw hstart
  obtain ⟨split, hsplit, hloop⟩ := splitLoop_joined 1 (List.replicate 12 none) hw hoff hlong
  have hplace : place [a, b, c, d] (List.replicate 12 none) 1 =
      if d.length ≤ 2 then .ok ([a, b, c, d].map row).flatten else .error .outOfBounds :=
    @place_eq _ [] (List.replicate 12 none) 0
      (fun t ht => ⟨(hw t ht).nonempty, (hts t ht).2⟩) rfl rfl rfl
  refine ⟨split, hsplit.trans hlen, ?_⟩
  by_cases hd : d.length ≤ 2
  · rw [if_pos hd] at hplace ⊢
    simp only [flipIpAddr, htok, bind, Except.bind, hloop, hplace, Except.map, reversed_rows hts hd]
  · rw [if_neg hd] at hplace ⊢
    simp only [flipIpAddr, htok, bind, Except.bind, hloop, hplace, Except.map]

theorem runOn_of_short {t : List UInt8} (hshort : t.length ≤ 2) (ts : List (List UInt8)) :
    runOn (t :: ts) = t := if_pos hshort

/-- A word that has lost its terminator brings the next one along. -/
theorem length_runOn (t : List UInt8) {u : List UInt8} (hu : u ≠ []) (us : List (List UInt8)) :
    t.length ≤ (runOn (t :: u :: us)).length ∧
      ((runOn (t :: u :: us)).length ≤ t.length → t.length ≤ 2) := by
  have hpos := List.length_pos_iff.mpr hu
  have hmore : u.length ≤ (runOn (u :: us)).length := by
    rw [runOn]
    split
    · exact Nat.le_refl _
    · rw [List.length_append]
      exact Nat.le_add_right _ _
  rw [runOn]
  split
  · exact ⟨Nat.le_refl _, fun _ => by assumption⟩
  · rw [List.length_append]
    omega

theorem printed_eq_iff (hb : b ≠ []) (hc : c ≠ []) (hd : d ≠ []) (hshort : d.length ≤ 2) :
    printed a b c d = [dot].intercalate [d, c, b, a] ↔
      a.length ≤ 2 ∧ b.length ≤ 2 ∧ c.length ≤ 2 := by
  constructor
  · intro heq
    have hla := length_runOn a hb [c, d]
    have hlb := length_runOn b hc [d]
    have hlc := length_runOn c hd []
    have hlen := congrArg List.length heq
    simp only [printed, runOn_of_short hshort, List.intercalate_cons_cons,
      List.intercalate_singleton, List.length_append, List.length_singleton] at hlen
    omega
  · rintro ⟨ha, hb, hc⟩
    rw [printed, runOn_of_short ha, runOn_of_short hb, runOn_of_short hc, runOn_of_short hshort]

theorem notMem_runOn {ts : List (List UInt8)} (hts : ∀ t ∈ ts, Word t) : 0 ∉ runOn ts := by
  induction ts with
  | nil => exact List.not_mem_nil
  | cons t ts ih =>
    obtain ⟨hw, hts⟩ := List.forall_mem_cons.mp hts
    rw [runOn]
    split
    · exact hw.nul
    · rw [List.mem_append, not_or]
      exact ⟨hw.nul, ih hts⟩

theorem notMem_printed (hw : ∀ t ∈ [a, b, c, d], Word t) : 0 ∉ printed a b c d := by
  have hbcd := (List.forall_mem_cons.mp hw).2
  have hcd := (List.forall_mem_cons.mp hbcd).2
  have hjustd := (List.forall_mem_cons.mp hcd).2
  have hdot : 0 ≠ dot := by decide
  simp [printed, hdot, notMem_runOn hw, notMem_runOn hbcd, notMem_runOn hcd, notMem_runOn hjustd]

theorem printBack_ok_iff {ipAddr : Bytes} {s s' : List UInt8} (h0 : 0 ∉ s) :
    (∃ out, printBack ipAddr s = .ok out ∧ text out = .ok s') ↔
      s = s' ∧ s.length < INET_ADDRSTRLEN ∧ s.length < ipAddr.length := by
  have hlocal : (List.replicate INET_ADDRSTRLEN (none : Option UInt8)).length = INET_ADDRSTRLEN :=
    List.length_replicate
  by_cases hprint : s.length < INET_ADDRSTRLEN
  · obtain ⟨m, hm, htext⟩ := strcpy_fits h0 (hlocal.symm ▸ hprint)
    have hback : printBack ipAddr s = strcpy ipAddr 0 s := by
      simp only [printBack, bind, Except.bind, hm, htext]
    rw [hback]
    by_cases hcopy : s.length < ipAddr.length
    · obtain ⟨bs, hbs, hout⟩ := strcpy_fits h0 hcopy
      simp [hbs, hout, hprint, hcopy]
    · simp [strcpy_overruns hcopy, hcopy]
  · have hm := @strcpy_overruns (List.replicate INET_ADDRSTRLEN none) s (hlocal.symm ▸ hprint)
    simp [printBack, bind, Except.bind, hm, hprint]

/-- Four words come back in reverse exactly if each of them fits its row. -/
theorem flip_words_iff (hts : ∀ t ∈ [a, b, c, d], Word t ∧ t.length ≤ 3) (rest : Bytes) :
    (∃ out, flipIpAddr (joined [a, b, c, d] rest) = .ok out ∧
      text out = .ok ([dot].intercalate [d, c, b, a])) ↔
      ∀ t ∈ [a, b, c, d], t.length ≤ 2 := by
  obtain ⟨split, hlen, hflip⟩ := flipIpAddr_eq hts rest
  have hw : ∀ t ∈ [a, b, c, d], Word t := fun t ht => (hts t ht).1
  rw [hflip]
  by_cases hd : d.length ≤ 2
  · have hprinted : printed a b c d = _ ↔ _ := printed_eq_iff (hw b (by simp)).nonempty
      (hw c (by simp)).nonempty (hw d (by simp)).nonempty hd
    rw [if_pos hd, printBack_ok_iff (notMem_printed hw), hprinted]
    constructor
    · rintro ⟨⟨ha, hb, hc⟩, _⟩
      simp [ha, hb, hc, hd]
    · intro hshort
      have ha := hshort a (by simp)
      have hb := hshort b (by simp)
      have hc := hshort c (by simp)
      have hall := hprinted.mpr ⟨ha, hb, hc⟩
      refine ⟨⟨ha, hb, hc⟩, ?_⟩
      -- reversed, the words are as long as before
      simp only [hall, hlen, joined, INET_ADDRSTRLEN, List.intercalate_cons_cons,
        List.intercalate_singleton, List.length_append, List.length_map, List.length_cons,
        List.length_nil]
      omega
  · rw [if_neg hd]
    simp [hd]

/-- An address in dotted decimal. -/
def dotted (a b c d : UInt8) : List UInt8 :=
  [dot].intercalate [decimal a.toNat, decimal b.toNat, decimal c.toNat, decimal d.toNat]

theorem word_decimal (n : Nat) : Word (decimal n) :=
  ⟨decimal_ne_nil n, notMem_decimal rfl n, notMem_decimal rfl n⟩

theorem length_decimal_octet (a : UInt8) : (decimal a.toNat).length ≤ 3 := by
  have hlt := a.toNat_lt
  exact (length_decimal_le_iff (by decide)).mpr (by omega)

theorem flip_dotted_iff (a b c d : UInt8) (rest : Bytes) :
    (∃ out, flipIpAddr ((dotted a b c d).map some ++ some 0 :: rest) = .ok out ∧
      text out = .ok (dotted d c b a)) ↔ a < 100 ∧ b < 100 ∧ c < 100 ∧ d < 100 := by
  have hts : ∀ t ∈ [decimal a.toNat, decimal b.toNat, decimal c.toNat, decimal d.toNat],
      Word t ∧ t.length ≤ 3 := by
    simp [word_decimal, length_decimal_octet]
  have hiff := flip_words_iff hts rest
  rw [joined] at hiff
  rw [dotted, dotted, hiff]
  simp [length_decimal_le_iff, UInt8.lt_iff_toNat_lt]

/-- An address comes back in reverse, and comes back itself the second time, exactly if
none of its numbers has three digits. -/
theorem flip_ip_addr_reverses_iff (a b c d : UInt8) (rest : Bytes) :
    (∃ out, flipIpAddr ((dotted a b c d).map some ++ some 0 :: rest) = .ok out ∧
      text out = .ok (dotted d c b a) ∧
      ∃ again, flipIpAddr out = .ok again ∧ text again = .ok (dotted a b c d)) ↔
    a < 100 ∧ b < 100 ∧ c < 100 ∧ d < 100 := by
  constructor
  · rintro ⟨out, hflip, htext, _⟩
    exact (flip_dotted_iff a b c d rest).mp ⟨out, hflip, htext⟩
  · intro hsmall
    obtain ⟨out, hflip, htext⟩ := (flip_dotted_iff a b c d rest).mpr hsmall
    obtain ⟨_, rest', hout⟩ := (text_ok_iff out _).mp htext
    obtain ⟨ha, hb, hc, hd⟩ := hsmall
    refine ⟨out, hflip, htext, ?_⟩
    rw [hout]
    exact (flip_dotted_iff d c b a rest').mpr ⟨hd, hc, hb, ha⟩

/-- In an array as large as the caller's, 127.0.0.1 becomes 1.0.0.1270. The terminator
of the last number of 10.0.0.100 is written behind the rows. -/
theorem flip_ip_addr_overruns :
    (flipIpAddr ((dotted 127 0 0 1).map some ++ some 0 :: List.replicate 6 none)).bind text =
        .ok ([dot].intercalate [decimal 1, decimal 0, decimal 0, decimal 1270]) ∧
      flipIpAddr ((dotted 10 0 0 100).map some ++ some 0 :: List.replicate 5 none) =
        .error .outOfBounds := by
  decide +kernel

end Flip

end Aesd.Proofs
