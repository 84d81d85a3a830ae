import Aesd.Base.CString

namespace Aesd.Base.CString
variable {delim : UInt8} {s : List UInt8}

/-- The last word of a text, none if there are only delimiters. -/
def lastWord (delim : UInt8) (s : List UInt8) : List UInt8 :=
  ((s.reverse.dropWhile (· == delim)).takeWhile (· != delim)).reverse

/-- A text with a word in it: the first word, what stands in front of it and behind it. -/
structure Worded (delim : UInt8) (s skipped word behind : List UInt8) : Prop where
  parts : s = skipped ++ word ++ behind
  skip : ∀ b ∈ skipped, b = delim
  nonempty : word ≠ []
  free : delim ∉ word
  stop : behind = [] ∨ ∃ rest, behind = delim :: rest

theorem worded_or_blank (delim : UInt8) (s : List UInt8) :
    (∀ b ∈ s, b = delim) ∨ ∃ skipped word behind, Worded delim s skipped word behind := by
  cases hs : s.dropWhile (· == delim) with
  | nil =>
    refine .inl ?_
    intro b hb
    simpa using List.dropWhile_eq_nil_iff.mp hs b hb
  | cons c t =>
    have hc : (c == delim) = false := by
      simpa [hs] using List.head?_dropWhile_not (· == delim) s
    refine .inr ⟨s.takeWhile (· == delim), (c :: t).takeWhile (· != delim),
      (c :: t).dropWhile (· != delim), ?_, ?_, ?_, ?_, ?_⟩
    · rw [List.append_assoc, List.takeWhile_append_dropWhile, ← hs,
        List.takeWhile_append_dropWhile]
    · intro b hb
      simpa using List.mem_takeWhile_imp hb
    · simp [bne, hc]
    · intro hm
      simpa using List.mem_takeWhile_imp hm
    · have hstop := List.head?_dropWhile_not (· != delim) (c :: t)
      cases hb : (c :: t).dropWhile (· != delim) with
      | nil => exact .inl rfl
      | cons d rest =>
        have hd : d = delim := by simpa [hb] using hstop
        exact .inr ⟨rest, by rw [hd]⟩

theorem dropWhile_blank (hblank : ∀ b ∈ s, b = delim) : s.dropWhile (· == delim) = [] := by
  apply List.dropWhile_eq_nil_iff.mpr
  intro b hb
  simpa using hblank b hb

theorem lastWord_eq_nil_iff : lastWord delim s = [] ↔ ∀ b ∈ s, b = delim := by
  have hhead := List.head?_dropWhile_not (· == delim) s.reverse
  constructor
  · intro h b hb
    cases ht : s.reverse.dropWhile (· == delim) with
    | nil => simpa using List.dropWhile_eq_nil_iff.mp ht b (List.mem_reverse.mpr hb)
    | cons c t =>
      have hc : (c == delim) = false := by simpa [ht] using hhead
      simp [lastWord, ht, bne, hc] at h
  · intro h
    have ht : s.reverse.dropWhile (· == delim) = [] :=
      dropWhile_blank (fun b hb => h b (List.mem_reverse.mp hb))
    simp [lastWord, ht]

/-- The word is the last one if there is none behind it. -/
theorem Worded.lastWord {skipped word behind : List UInt8}
    (h : Worded delim s skipped word behind) :
    lastWord delim s =
      if lastWord delim behind.tail = [] then word else lastWord delim behind.tail := by
  have hword : ((word.reverse ++ skipped.reverse).dropWhile (· == delim)).takeWhile (· != delim) =
      word.reverse := by
    have hfree : ∀ b ∈ word.reverse, (b != delim) = true := by
      intro b hb
      simpa using fun he : b = delim => h.free (he ▸ List.mem_reverse.mp hb)
    have hskip : skipped.reverse.takeWhile (· != delim) = [] := by
      cases hs : skipped.reverse with
      | nil => rfl
      | cons b t => simp [h.skip b (List.mem_reverse.mp (hs ▸ List.mem_cons_self))]
    cases hw : word.reverse with
    | nil => exact absurd (List.reverse_eq_nil_iff.mp hw) h.nonempty
    | cons b t =>
      have hb : (b == delim) = false := by simpa using hfree b (hw ▸ List.mem_cons_self)
      rw [List.cons_append, List.dropWhile_cons_of_neg (by simp [hb]), ← List.cons_append, ← hw,
        List.takeWhile_append_of_pos hfree, hskip, List.append_nil]
  obtain hnil | ⟨rest, hcons⟩ := h.stop
  · have hblank : CString.lastWord delim behind.tail = [] := by simp [hnil, CString.lastWord]
    rw [if_pos hblank, CString.lastWord, h.parts, hnil, List.append_nil, List.reverse_append, hword,
      List.reverse_reverse]
  · -- from the end: what is behind the delimiter, the delimiter, the word
    have hrev : s.reverse = rest.reverse ++ delim :: (word.reverse ++ skipped.reverse) := by
      simp [h.parts, hcons]
    rw [hcons, List.tail_cons]
    split
    · rename_i hblank
      have hall : ∀ b ∈ rest.reverse, (b == delim) = true := by
        intro b hb
        simpa using lastWord_eq_nil_iff.mp hblank b (List.mem_reverse.mp hb)
      rw [CString.lastWord, hrev, List.dropWhile_append_of_pos hall,
        List.dropWhile_cons_of_pos (by simp), hword, List.reverse_reverse]
    · rename_i hsome
      have hmore : rest.reverse.dropWhile (· == delim) ≠ [] := by
        intro hnil
        exact hsome (by simp [CString.lastWord, hnil])
      rw [CString.lastWord, hrev, List.dropWhile_append, if_neg (by simpa using hmore),
        List.takeWhile_append, List.takeWhile_cons_of_neg (by simp), List.append_nil]
      split
      · rename_i hlen
        rw [CString.lastWord, (List.takeWhile_prefix _).eq_of_length hlen]
      · rfl

variable {bs pad : Bytes} {off : Nat}

/-- Where no word is left, `strtok` finds none. -/
theorem strtokAt_blank (hdelim : delim ≠ 0) (hblank : ∀ b ∈ s, b = delim)
    (hoff : bs.drop off = s.map some ++ some 0 :: pad) :
    ∃ bs' off', strtokAt delim bs off = .ok (none, off', bs') := by
  have htok : strtok delim (s.map some ++ some 0 :: pad) = .ok (none, some 0 :: pad) := by
    rw [strtok_skip hdelim, dropWhile_blank hblank]
    rfl
  obtain ⟨bs', off', hrun, _, _⟩ := strtokAt_eq none (s.map some) hoff nofun htok
  exact ⟨bs', off', hrun⟩

/-- Otherwise it takes the first word off, and the delimiter behind it. -/
theorem Worded.strtokAt {skipped word behind : List UInt8}
    (h : Worded delim s skipped word behind) (hdelim : delim ≠ 0) (h0 : 0 ∉ s)
    (hoff : bs.drop off = s.map some ++ some 0 :: pad) :
    ∃ bs' off', strtokAt delim bs off = .ok (some word, off', bs') ∧
      bs'.drop off' = behind.tail.map some ++ some 0 :: pad := by
  have hword0 : 0 ∉ word := by
    intro hm
    exact h0 (by simp [h.parts, hm])
  have hend : token delim (behind.map some ++ some 0 :: pad) =
      .ok ([], behind.tail.map some ++ some 0 :: pad) := by
    obtain hnil | ⟨rest, hcons⟩ := h.stop
    · simp [hnil, token]
    · simp [hcons, token, hdelim]
  have htok : strtok delim (s.map some ++ some 0 :: pad) =
      .ok (some word, behind.tail.map some ++ some 0 :: pad) := by
    rw [h.parts, List.map_append, List.map_append, List.append_assoc, List.append_assoc,
      strtok_skip hdelim, dropWhile_blank h.skip]
    exact strtok_word hdelim hword0 h.free h.nonempty hend
  have hsplit : s.map some ++ some 0 :: pad =
      (skipped ++ word ++ behind.take 1).map some ++
        (behind.tail.map some ++ some 0 :: pad) := by
    rw [← List.append_assoc, ← List.map_append, List.append_assoc, ← List.drop_one,
      List.take_append_drop, ← h.parts]
  rw [hsplit] at hoff htok
  obtain ⟨bs', off', hrun, _, hnext⟩ := strtokAt_eq (some word) _ hoff
    (by simp [h.nonempty]) htok
  exact ⟨bs', off', hrun, hnext⟩

end Aesd.Base.CString
