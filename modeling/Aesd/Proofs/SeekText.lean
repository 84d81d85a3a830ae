import Aesd.Proofs.Segmentation
import Mathlib.Data.Nat.Digits.Lemmas

namespace Aesd.Proofs
open Base Server CString
open Driver (newline)

section Fields
variable {s : List UInt8}

/-- What is left of a text from the comma on that ends its first field, nothing if
there is none. -/
def behindField (s : List UInt8) : List UInt8 := (s.dropWhile (· == 44)).dropWhile (· != 44)

theorem behindField_suffix (s : List UInt8) : behindField s <:+ s :=
  (List.dropWhile_suffix _).trans (List.dropWhile_suffix _)

theorem behindField_head {b : UInt8} {t : List UInt8} (h : behindField s = b :: t) : b = 44 := by
  have hhead := List.head?_dropWhile_not (· != 44) (s.dropWhile (· == 44))
  rw [behindField] at h
  simpa [h] using hhead

@[simp] theorem behindField_comma (t : List UInt8) : behindField (44 :: t) = behindField t := by
  simp [behindField]

theorem comma_mem_field (h : behindField s ≠ []) : 44 ∈ s.dropWhile (· == 44) := by
  obtain ⟨b, t, ht⟩ := List.exists_cons_of_ne_nil h
  obtain rfl := behindField_head ht
  apply (List.dropWhile_suffix (· != 44)).subset
  rw [← behindField, ht]
  exact List.mem_cons_self

/-- With a single comma there is no second field that ends with one. -/
theorem behindField_twice (h : s.count 44 ≤ 1) : behindField (behindField s) = [] := by
  by_contra hne
  cases hfirst : behindField s with
  | nil => exact hne (by rw [hfirst]; rfl)
  | cons b t =>
    obtain rfl := behindField_head hfirst
    rw [hfirst, behindField_comma] at hne
    have hmem : 0 < t.count 44 := List.count_pos_iff.mpr
      ((List.dropWhile_sublist _).subset (comma_mem_field hne))
    have hle := (behindField_suffix s).sublist.count_le 44
    rw [hfirst, List.count_cons_self] at hle
    omega

/-- The search for a field that ends in the bytes at hand. -/
theorem strtok_closed (h0 : 0 ∉ s) (h : behindField s ≠ []) (rest : Bytes) :
    strtok 44 (s.map some ++ rest) = .ok (some ((s.dropWhile (· == 44)).takeWhile (· != 44)),
      (behindField s).tail.map some ++ rest) := by
  have hmem := comma_mem_field h
  have h0' : 0 ∉ s.dropWhile (· == 44) := fun hm => h0 ((List.dropWhile_sublist _).subset hm)
  rw [strtok_eq_token (by decide) h0 (List.ne_nil_of_mem hmem), token_hit h0' hmem]
  rfl

/-- Where no field ends, the search goes on past the bytes that were copied. -/
theorem strtok_open (h0 : 0 ∉ s) (h : behindField s = []) (n : Nat) :
    ∃ e, strtok 44 (s.map some ++ List.replicate n none) = .error e := by
  obtain ⟨e, hstrtok, htoken⟩ : ∃ e, strtok 44 (List.replicate n none) = .error e ∧
      token 44 (List.replicate n none) = .error e := by
    cases n with
    | zero => exact ⟨_, rfl, rfl⟩
    | succ n => exact ⟨_, rfl, rfl⟩
  refine ⟨e, ?_⟩
  by_cases hne : s.dropWhile (· == 44) = []
  · rw [strtok_skip (by decide), hne]
    exact hstrtok
  · have h0' : 0 ∉ s.dropWhile (· == 44) := fun hm => h0 ((List.dropWhile_sublist _).subset hm)
    have hmem : 44 ∉ s.dropWhile (· == 44) := by
      intro hm
      have hall := List.dropWhile_eq_nil_iff.mp h 44 hm
      simp at hall
    rw [strtok_eq_token (by decide) h0 hne, token_miss h0' hmem, htoken]

/-- Both numbers are found exactly if two fields end in the bytes that were copied. -/
theorem seekFields_ok_iff (h0 : 0 ∉ s) (n : Nat) :
    (∃ args, seekFields (s.map some ++ List.replicate n none) = .ok args) ↔
      behindField (behindField s) ≠ [] := by
  by_cases hfirst : behindField s = []
  · obtain ⟨e, he⟩ := strtok_open h0 hfirst n
    have hnil : behindField (behindField s) = [] := by rw [hfirst]; rfl
    simp [seekFields, bind, Except.bind, he, hnil]
  · obtain ⟨b, t, ht⟩ := List.exists_cons_of_ne_nil hfirst
    obtain rfl := behindField_head ht
    have h0t : 0 ∉ t := by
      intro hm
      apply h0
      apply (behindField_suffix s).subset
      simp [ht, hm]
    have hone := strtok_closed h0 hfirst (List.replicate n none)
    rw [ht, List.tail_cons] at hone
    rw [ht, behindField_comma]
    by_cases hsecond : behindField t = []
    · obtain ⟨e, he⟩ := strtok_open h0t hsecond n
      simp [seekFields, bind, Except.bind, hone, seekNumber, he, hsecond]
    · have htwo := strtok_closed h0t hsecond (List.replicate n none)
      simp [seekFields, bind, Except.bind, hone, seekNumber, htwo, hsecond, pure, Except.pure]

end Fields

section Safety

/-- Parsing goes well exactly if five bytes follow the special string and hold two
fields that both end with a comma. -/
theorem parseSeekto_ok_iff {bytes : List UInt8} (h0 : 0 ∉ bytes)
    (hlen : bytes.length < READ_WRITE_SIZE) (h19 : 19 ≤ bytes.length) :
    (∃ args, parseSeekto (inBuffer bytes) = .ok args) ↔
      24 ≤ bytes.length ∧ behindField (behindField ((bytes.drop 19).take 5)) ≠ [] := by
  rw [parseSeekto_eq h0 hlen h19]
  by_cases hfits : bytes.length < 24
  · rw [if_pos hfits]
    constructor
    · rintro ⟨args, hargs⟩
      cases hargs
    · rintro ⟨h24, _⟩
      omega
  · have h0' : 0 ∉ (bytes.drop 19).take 5 :=
      fun hm => h0 (List.mem_of_mem_drop (List.mem_of_mem_take hm))
    rw [if_neg hfits, seekFields_ok_iff h0']
    simp [Nat.le_of_not_lt hfits]

/-- A command is parsed without a fault exactly if there are five bytes to copy and two
fields end in them. What earlier chunks have left behind the command counts as
part of it. -/
theorem seek_parse_safe_iff {under chunk : List UInt8} (hnul : 0 ∉ under)
    (hshort : under.length < READ_WRITE_SIZE) (hproper : Proper chunk)
    (hspecial : specialString <+: chunk) :
    (∃ args, parseSeekto (inBuffer (lay under chunk)) = .ok args) ↔
      24 ≤ (lay under chunk).length ∧
        behindField (behindField (((lay under chunk).drop 19).take 5)) ≠ [] := by
  apply parseSeekto_ok_iff (notMem_lay hnul hproper.nul)
  · exact length_lay_lt hshort hproper.short
  · rw [length_lay]
    exact Nat.le_trans hspecial.length_le (Nat.le_max_left _ _)

/-- With a comma behind the second number the command parses. -/
theorem seek_parse_with_commas :
    ∃ args, parseSeekto (inBuffer (specialString ++ [48, 44, 49, 44, 10])) = .ok args := by
  have hiff := @seek_parse_safe_iff [] (specialString ++ [48, 44, 49, 44, 10])
    List.not_mem_nil (by decide) ⟨by decide, by decide, by decide⟩ (List.prefix_append _ _)
  rw [lay_nil] at hiff
  exact hiff.mpr ⟨by decide, by decide⟩

/-- Four bytes of text: the copy overruns the block. Five: the search for the end of the
second number does. Six: it reads a byte of the block that was never written. -/
theorem seek_parse_overruns :
    parseSeekto (inBuffer (specialString ++ [48, 44, 49, 10])) = .error .outOfBounds ∧
      parseSeekto (inBuffer (specialString ++ [48, 44, 49, 50, 10])) = .error .outOfBounds ∧
      parseSeekto (inBuffer (specialString ++ [48, 44, 49, 50, 51, 10])) =
        .error .uninitialised := by
  decide +kernel

/-- A buffer that starts with the special string holds a string that does. -/
theorem length_of_special {readBuffer bytes : List UInt8}
    (htext : text (readBuffer.map some) = .ok bytes) (hseek : isSeek readBuffer = true) :
    19 ≤ bytes.length := by
  by_contra hlen
  obtain ⟨_, rest, heq⟩ := (text_ok_iff _ _).mp htext
  have htake : readBuffer.take 19 = specialString := by simpa [isSeek] using hseek
  have hnul : some 0 ∈ (readBuffer.take 19).map some := by
    rw [List.map_take, heq, List.take_append, List.length_map]
    apply List.mem_append_right
    obtain ⟨n, hn⟩ := Nat.exists_eq_succ_of_ne_zero (by omega : 19 - bytes.length ≠ 0)
    rw [hn, List.take_succ_cons]
    exact List.mem_cons_self
  rw [htake] at hnul
  exact absurd hnul (by decide)

/-- The log line before the numbers are looked for is never in order. The five bytes that
were copied have no terminator among them: behind them the block ends, or holds bytes that
were never written. With fewer than five bytes to copy the copy itself has left the block. -/
theorem seek_log_never_safe {readBuffer bytes : List UInt8}
    (htext : text (readBuffer.map some) = .ok bytes) (hseek : isSeek readBuffer = true) :
    loggedTempString readBuffer =
      .error (if bytes.length ≤ 24 then .outOfBounds else .uninitialised) := by
  change (tempString readBuffer).bind text = _
  rw [tempString_eq htext (length_of_special htext hseek)]
  by_cases hfits : bytes.length < 24
  · rw [if_pos hfits, if_pos (by omega)]
    rfl
  · obtain ⟨h0, _⟩ := (text_ok_iff _ _).mp htext
    have h0' : 0 ∉ (bytes.drop 19).take 5 :=
      fun hm => h0 (List.mem_of_mem_drop (List.mem_of_mem_take hm))
    rw [if_neg hfits]
    apply text_append_error h0'
    by_cases hexact : bytes.length ≤ 24
    · rw [if_pos hexact, Nat.sub_eq_zero_of_le hexact]
      rfl
    · obtain ⟨n, hn⟩ := Nat.exists_eq_succ_of_ne_zero (by omega : bytes.length - 24 ≠ 0)
      rw [if_neg hexact, hn]
      rfl

/-- Two commands that parse. The log line leaves the block of the first, and reads a byte
of that of the second which was never written. -/
theorem parsed_seek_log_overruns :
    (∃ args, parseSeekto (inBuffer (specialString ++ [48, 44, 49, 44, 10])) = .ok args) ∧
    loggedTempString (inBuffer (specialString ++ [48, 44, 49, 44, 10])) = .error .outOfBounds ∧
    (∃ args, parseSeekto (inBuffer (specialString ++ [48, 44, 49, 44, 13, 10])) = .ok args) ∧
    loggedTempString (inBuffer (specialString ++ [48, 44, 49, 44, 13, 10])) =
      .error .uninitialised := by
  have hparse : ∃ args, parseSeekto (inBuffer (specialString ++ [48, 44, 49, 44, 10])) =
      .ok args := ⟨(0, 1), by decide +kernel⟩
  have hparse' : ∃ args, parseSeekto (inBuffer (specialString ++ [48, 44, 49, 44, 13, 10])) =
      .ok args := ⟨(0, 1), by decide +kernel⟩
  have hlog := seek_log_never_safe
    (@text_inBuffer (specialString ++ [48, 44, 49, 44, 10]) (by decide) (by decide)) (by decide)
  have hlog' := seek_log_never_safe
    (@text_inBuffer (specialString ++ [48, 44, 49, 44, 13, 10]) (by decide) (by decide))
    (by decide)
  exact ⟨hparse, hlog, hparse', hlog'⟩

end Safety

section Decimal
variable {ds rest : List UInt8} {n : Nat}

/-- A number in decimal. -/
def decimal (n : Nat) : List UInt8 :=
  if n = 0 then [48] else (Nat.digits 10 n).reverse.map (fun d => UInt8.ofNat (48 + d))

/-- The number that a text of digits stands for. -/
def numberOf (ds : List UInt8) : Nat := ds.foldl (fun n b => 10 * n + (b.toNat - 48)) 0

theorem toNat_digit {d : Nat} (hd : d < 10) : (UInt8.ofNat (48 + d)).toNat = 48 + d := by
  simp [UInt8.toNat_ofNat']
  omega

theorem isDigit_iff (b : UInt8) : isDigit b = true ↔ 48 ≤ b.toNat ∧ b.toNat ≤ 57 := by
  simp [isDigit, UInt8.le_iff_toNat_le]

theorem isDigit_of_mem_decimal {b : UInt8} (hb : b ∈ decimal n) : isDigit b = true := by
  rw [isDigit_iff]
  unfold decimal at hb
  split at hb
  · obtain rfl := List.mem_singleton.mp hb
    decide
  · obtain ⟨d, hd, rfl⟩ := List.mem_map.mp hb
    have hlt : d < 10 := Nat.digits_lt_base (by decide) (List.mem_reverse.mp hd)
    rw [toNat_digit hlt]
    omega

theorem decimal_ne_nil (n : Nat) : decimal n ≠ [] := by
  unfold decimal
  split
  · simp
  · simp [Nat.digits_ne_nil_iff_ne_zero, *]

theorem numberOf_decimal (n : Nat) : numberOf (decimal n) = n := by
  unfold decimal
  split
  · subst n
    rfl
  · rw [numberOf, List.foldl_map, List.foldl_reverse]
    conv_rhs => rw [← Nat.ofDigits_digits 10 n, Nat.ofDigits_eq_foldr]
    apply List.foldr_ext
    intro d hd m
    rw [toNat_digit (Nat.digits_lt_base (by decide) hd)]
    simp
    omega

theorem length_decimal_le_iff {k : Nat} (hk : 0 < k) : (decimal n).length ≤ k ↔ n < 10 ^ k := by
  unfold decimal
  split
  · rename_i hn
    subst hn
    simp
    omega
  · simpa using Nat.digits_length_le_iff (by decide) n

theorem le_foldl_digits (a : Nat) (ds : List UInt8) :
    a ≤ ds.foldl (fun n b => 10 * n + (b.toNat - 48)) a := by
  induction ds generalizing a with
  | nil => exact Nat.le_refl a
  | cons b ds ih =>
    have := ih (10 * a + (b.toNat - 48))
    simp only [List.foldl_cons]
    omega

/-- Every further digit makes for ten times the number. -/
theorem numberOf_append_le (ds : List UInt8) (hrest : rest ≠ []) :
    10 * numberOf ds ≤ numberOf (ds ++ rest) := by
  obtain ⟨b, bs, rfl⟩ := List.exists_cons_of_ne_nil hrest
  calc 10 * numberOf ds ≤ 10 * numberOf ds + (b.toNat - 48) := Nat.le_add_right _ _
    _ ≤ bs.foldl (fun n b => 10 * n + (b.toNat - 48)) (10 * numberOf ds + (b.toNat - 48)) :=
      le_foldl_digits _ bs
    _ = numberOf (ds ++ b :: bs) := by simp [numberOf]

/-- `atoi` reads digits up to the first byte that is none. -/
theorem atoi_digits (hds : ∀ b ∈ ds, isDigit b = true) (hne : ds ≠ [])
    (hrest : ∀ b ∈ rest.head?, isDigit b = false) : atoi (ds ++ rest) = numberOf ds := by
  obtain ⟨d, ds', rfl⟩ := List.exists_cons_of_ne_nil hne
  have hd := (isDigit_iff d).mp (hds d List.mem_cons_self)
  have hspace : isSpace d = false := by
    simp only [isSpace, Bool.or_eq_false_iff, beq_eq_false_iff_ne, Bool.and_eq_false_iff,
      decide_eq_false_iff_not, UInt8.le_iff_toNat_le, ne_eq, ← UInt8.toNat_inj]
    simp
    omega
  have hplus : d ≠ 43 := by rintro rfl; simp at hd
  have hminus : d ≠ 45 := by rintro rfl; simp at hd
  have htake : (d :: ds' ++ rest).takeWhile isDigit = d :: ds' := by
    rw [List.takeWhile_append_of_pos hds]
    cases rest with
    | nil => simp
    | cons b rest => simp [hrest b rfl]
  rw [List.cons_append] at htake ⊢
  simp only [atoi, List.dropWhile_cons, hspace, Bool.false_eq_true, ↓reduceIte, List.head?_cons,
    Option.some.injEq, hplus, hminus, or_self, htake, numberOf]

end Decimal

section Text
variable {c o : Nat} {a b : List UInt8}

/-- The command for a seek to byte `o` of packet `c`. -/
def seekText (c o : Nat) : List UInt8 :=
  specialString ++ (decimal c ++ 44 :: (decimal o ++ [newline]))

theorem notMem_decimal {x : UInt8} (hx : isDigit x = false) (n : Nat) : x ∉ decimal n := by
  intro hm
  rw [isDigit_of_mem_decimal hm] at hx
  cases hx

theorem seekText_proper (hc : c < 2 ^ 31) (ho : o < 2 ^ 31) : Proper (seekText c o) := by
  have hlc : (decimal c).length ≤ 10 := (length_decimal_le_iff (by decide)).mpr (by omega)
  have hlo : (decimal o).length ≤ 10 := (length_decimal_le_iff (by decide)).mpr (by omega)
  refine ⟨by simp [seekText], ?_, ?_⟩
  · have hspecial : (0 : UInt8) ∉ specialString := by decide
    simp [seekText, hspecial, notMem_decimal, newline, show isDigit 0 = false from rfl]
  · simp only [seekText, List.length_append, List.length_cons, List.length_nil, READ_WRITE_SIZE,
      show specialString.length = 19 from rfl]
    omega

theorem isSeek_seekText (c o : Nat) : isSeek (inBuffer (seekText c o)) = true := by
  simp [isSeek, inBuffer, seekText, specialString]

theorem drop_seekText (c o : Nat) :
    (seekText c o).drop 19 = decimal c ++ 44 :: (decimal o ++ [newline]) := rfl

/-- There is one comma in the text, and it takes two to parse it. -/
theorem parse_seekText_faults (hc : c < 2 ^ 31) (ho : o < 2 ^ 31) :
    ∃ e, parseSeekto (inBuffer (seekText c o)) = .error e := by
  have hproper := seekText_proper hc ho
  cases hparse : parseSeekto (inBuffer (seekText c o)) with
  | error e => exact ⟨e, rfl⟩
  | ok args =>
    have hfields := ((parseSeekto_ok_iff hproper.nul hproper.short
      (length_of_isSeek (isSeek_seekText c o))).mp ⟨args, hparse⟩).2
    refine absurd (behindField_twice ?_) hfields
    have hcomma : isDigit 44 = false := by decide
    calc (((seekText c o).drop 19).take 5).count 44
        ≤ ((seekText c o).drop 19).count 44 := (List.take_sublist _ _).count_le 44
      _ = 1 := by
        rw [drop_seekText, List.count_append, List.count_cons_self, List.count_append,
          List.count_eq_zero.mpr (notMem_decimal hcomma c),
          List.count_eq_zero.mpr (notMem_decimal hcomma o)]
        rfl

/-- No command in decimal gets as far as the device: parsing it faults, whatever the
numbers are. -/
theorem seek_text_never_passed {σ : Type} {sys : Sys σ} {skt : Nat}
    {queue : σ → List (List UInt8)} (hf : Feeds sys skt queue) (limit : Nat) (fd : Fd) {s : σ}
    {c o : Nat} (hc : c < 2 ^ 31) (ho : o < 2 ^ 31) {rest : List (List UInt8)}
    (hq : queue s = seekText c o :: rest) : deviceCommands sys limit skt fd s = [] := by
  rw [deviceCommands, receiveAndWriteToFile, blankBuffer_eq]
  cases limit with
  | zero => rfl
  | succ limit =>
    have hstart : queue (⟨s, fun _ => 0, []⟩ : Shared σ).inner = seekText c o :: rest := hq
    obtain ⟨out, hrun, hcases⟩ := run_receiveLoop_step hf (Nat.succ_pos limit) fd
      (seekText_proper hc ho) List.not_mem_nil (by decide) limit hstart
    rw [hrun]
    rw [lay_nil, isSeek_seekText] at hcases
    rcases hcases with ⟨_, hcommands⟩ | ⟨hdata, _⟩ | ⟨hdata, _⟩
    · obtain ⟨e, he⟩ := parse_seekText_faults hc ho
      rw [hcommands, seekCommand, he]
      rfl
    · cases hdata
    · cases hdata

/-- Not even a seek to the first byte of the first packet. -/
theorem seek_text_zero_never_passed :
    deviceCommands script READ_WRITE_SIZE 0 none [seekText 0 0] = [] :=
  seek_text_never_passed (script_feeds 0) READ_WRITE_SIZE none (by decide) (by decide) rfl

/-- Seeking to byte 100 of packet 10 reads a byte that was never written. Were there a
terminator, the five bytes would stand for byte 10. -/
theorem seek_text_cut_short :
    deviceCommands script READ_WRITE_SIZE 0 none [seekText 10 100] = [] ∧
      parseSeekto (inBuffer (seekText 10 100)) = .error .uninitialised ∧
      seekFields ((padded 5 (((seekText 10 100).drop 19).take 5)).map some ++ [some 0]) =
        .ok (10, 10) := by
  decide +kernel

end Text

section Forgiving
variable {c o : Nat} {a b : List UInt8} {z : Bytes}

theorem padded_terminated (n : Nat) (s : List UInt8) :
    (padded n s).map some ++ [some 0] =
      s.map some ++ some 0 :: List.replicate (n - s.length) (some 0) := by
  have hzeros : List.replicate (n - s.length) (some (0 : UInt8)) ++ [some 0] =
      some 0 :: List.replicate (n - s.length) (some 0) := by
    rw [← List.replicate_succ', List.replicate_succ]
  rw [padded, List.map_append, List.map_replicate, List.append_assoc, hzeros]

/-- The last field of a string. -/
theorem strtok_last (h0 : 0 ∉ a) (ha : 44 ∉ a) (hne : a ≠ []) :
    strtok 44 (a.map some ++ some 0 :: z) = .ok (some a, some 0 :: z) :=
  strtok_word (by decide) h0 ha hne rfl

/-- A field with others behind it. -/
theorem strtok_first (h0 : 0 ∉ a ++ 44 :: b) (ha : 44 ∉ a) (hne : a ≠ []) :
    strtok 44 ((a ++ 44 :: b).map some ++ some 0 :: z) =
      .ok (some a, b.map some ++ some 0 :: z) := by
  have h0a : 0 ∉ a := fun hm => h0 (List.mem_append_left _ hm)
  rw [List.map_append, List.append_assoc]
  exact strtok_word (by decide) h0a ha hne rfl

theorem seekFields_two (h0 : 0 ∉ a ++ 44 :: b) (ha : 44 ∉ a) (hb : 44 ∉ b) (hane : a ≠ [])
    (hbne : b ≠ []) :
    seekFields ((a ++ 44 :: b).map some ++ some 0 :: z) =
      .ok ((atoi a % 2 ^ 32).toNat, (atoi b % 2 ^ 32).toNat) := by
  have h0b : 0 ∉ b := fun hm => h0 (by simp [hm])
  simp [seekFields, bind, Except.bind, pure, Except.pure, seekNumber, -List.map_append,
    strtok_first h0 ha hane, strtok_last h0b hb hbne]

/-- With one field only, `atoi` gets NULL for the second. -/
theorem seekFields_one (h0 : 0 ∉ a) (ha : 44 ∉ a) (hne : a ≠ []) :
    seekFields (a.map some ++ some 0 :: z) = .error .nullDeref ∧
      seekFields ((a ++ [44]).map some ++ some 0 :: z) = .error .nullDeref := by
  have hclosed : strtok 44 ((a ++ [44]).map some ++ some 0 :: z) = .ok (some a, some 0 :: z) :=
    strtok_first (by simp [h0]) ha hne
  constructor
  · simp [seekFields, bind, Except.bind, strtok_last h0 ha hne, seekNumber, strtok]
  · simp [seekFields, bind, Except.bind, hclosed, seekNumber, strtok, -List.map_append]

theorem numberOf_take {n m : Nat} (hcut : m < (decimal n).length) :
    10 * numberOf ((decimal n).take m) ≤ n := by
  have hrest : (decimal n).drop m ≠ [] := by simpa using hcut
  have hle := numberOf_append_le ((decimal n).take m) hrest
  rwa [List.take_append_drop, numberOf_decimal] at hle

/-- A number that was cut short is not the same number. -/
theorem numberOf_take_ne {n m : Nat} (hm : 0 < m) (hcut : m < (decimal n).length) :
    numberOf ((decimal n).take m) ≠ n := by
  intro heq
  have hle := numberOf_take hcut
  obtain rfl : n = 0 := by omega
  exact absurd hcut (Nat.not_lt.mpr hm)

theorem atoi_decimal (n : Nat) : atoi (decimal n) = n := by
  have hall : atoi (decimal n ++ []) = numberOf (decimal n) :=
    atoi_digits (fun _ => isDigit_of_mem_decimal) (decimal_ne_nil n) (by simp)
  rwa [List.append_nil, numberOf_decimal] at hall

theorem seekNumber_small {n : Nat} (hn : n < 2 ^ 31) : ((n : Int) % 2 ^ 32).toNat = n := by omega

theorem take_body (hc : (decimal c).length ≤ 4) :
    (decimal c ++ 44 :: (decimal o ++ [newline])).take 5 =
      decimal c ++ 44 :: (decimal o ++ [newline]).take (4 - (decimal c).length) := by
  have hleft : 5 - (decimal c).length = 4 - (decimal c).length + 1 := by omega
  rw [List.take_append, List.take_of_length_le (by omega), hleft, List.take_succ_cons]

/-- What the second number is read from: all of its digits, or as many as there was
room for. -/
theorem atoi_take {n m : Nat} (hm : 0 < m) :
    atoi ((decimal n ++ [newline]).take m) = numberOf ((decimal n).take m) := by
  rw [List.take_append]
  apply atoi_digits
  · intro x hx
    exact isDigit_of_mem_decimal (List.mem_of_mem_take hx)
  · have hne := decimal_ne_nil n
    simp only [ne_eq, List.take_eq_nil_iff, hne, or_false]
    omega
  · intro x hx
    obtain rfl : x = newline := by simpa using List.mem_of_mem_take (List.mem_of_mem_head? hx)
    decide

/-- If the block had room for the copy and a terminator behind it, the numbers would be
read as they were written exactly if they have four digits between them. -/
theorem seek_text_decoded_iff (hc : c < 2 ^ 31) (ho : o < 2 ^ 31) :
    seekFields ((padded 5 (((seekText c o).drop 19).take 5)).map some ++ [some 0]) = .ok (c, o) ↔
      (decimal c).length + (decimal o).length ≤ 4 := by
  have hcne := decimal_ne_nil c
  have hopos : 0 < (decimal o).length := List.length_pos_iff.mpr (decimal_ne_nil o)
  have hnul : ∀ n, (0 : UInt8) ∉ decimal n := notMem_decimal (by decide)
  have hcomma : ∀ n, (44 : UInt8) ∉ decimal n := notMem_decimal (by decide)
  rw [padded_terminated, drop_seekText]
  by_cases hfive : 5 ≤ (decimal c).length
  · rw [List.take_append_of_le_length hfive, (seekFields_one
      (fun hm => hnul c (List.mem_of_mem_take hm)) (fun hm => hcomma c (List.mem_of_mem_take hm))
      (by simp [hcne])).1]
    simp only [reduceCtorEq, false_iff]
    omega
  rw [take_body (by omega)]
  by_cases hfour : (decimal c).length = 4
  · rw [hfour, Nat.sub_self, List.take_zero, (seekFields_one (hnul c) (hcomma c) hcne).2]
    simp only [reduceCtorEq, false_iff]
    omega
  -- there is room for at least one digit of the second number
  have hroom : 0 < 4 - (decimal c).length := by omega
  have hsecond : ∀ x ∈ (decimal o ++ [newline]).take (4 - (decimal c).length),
      x ≠ 0 ∧ x ≠ 44 := by
    intro x hx
    rcases List.mem_append.mp (List.mem_of_mem_take hx) with hdigit | hnl
    · exact ⟨ne_of_mem_of_not_mem hdigit (hnul o), ne_of_mem_of_not_mem hdigit (hcomma o)⟩
    · obtain rfl := List.mem_singleton.mp hnl
      decide
  rw [seekFields_two (by simpa [hnul c] using fun hm => (hsecond 0 hm).1 rfl) (hcomma c)
    (fun hm => (hsecond 44 hm).2 rfl) hcne (by simp; omega), atoi_decimal, atoi_take hroom,
    seekNumber_small hc]
  by_cases hfits : (decimal o).length ≤ 4 - (decimal c).length
  · rw [List.take_of_length_le hfits, numberOf_decimal, seekNumber_small ho]
    simp only [true_iff]
    omega
  · have hcut := numberOf_take_ne hroom (Nat.lt_of_not_le hfits)
    have hle := numberOf_take (Nat.lt_of_not_le hfits)
    rw [seekNumber_small (by omega)]
    simp only [Except.ok.injEq, Prod.mk.injEq, hcut, and_false, false_iff]
    omega

end Forgiving

end Aesd.Proofs
