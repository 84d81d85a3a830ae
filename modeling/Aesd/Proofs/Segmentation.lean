import Aesd.Proofs.Receiving
import Mathlib.Algebra.BigOperators.Group.List.Basic

namespace Aesd.Proofs
open Base Server CString
open Driver (newline)

section Parsing

/-- The numbers in the part of a command that was copied. -/
def seekFields (tempString : Bytes) : Except Fault (Nat × Nat) := do
  let (first, rest) ← strtok 44 tempString
  let writeCmd ← seekNumber first
  let (second, _) ← strtok 44 rest
  let writeCmdOffset ← seekNumber second
  return (writeCmd, writeCmdOffset)

theorem seekFields_local {bs : Bytes} {n : Nat} {args : Nat × Nat}
    (h : seekFields (bs ++ List.replicate n none) = .ok args) (m : Nat) :
    seekFields (bs ++ List.replicate m none) = .ok args := by
  simp only [seekFields, bind, Except.bind] at h ⊢
  split at h
  · cases h
  · rename_i res hfirst
    obtain ⟨first, rest⟩ := res
    obtain ⟨r, rfl, hfirst'⟩ := strtok_local hfirst
    rw [hfirst' (List.replicate m none)]
    dsimp only at h ⊢
    split at h
    · cases h
    · split at h
      · cases h
      · rename_i res hsecond
        obtain ⟨second, last⟩ := res
        obtain ⟨r', rfl, hsecond'⟩ := strtok_local hsecond
        rw [hsecond' (List.replicate m none)]
        exact h

variable {bytes : List UInt8}

/-- A buffer that starts with the special string holds that many bytes at least. -/
theorem length_of_isSeek (hseek : isSeek (inBuffer bytes) = true) : 19 ≤ bytes.length := by
  by_contra hlen
  have htake : (inBuffer bytes).take 19 = specialString := by simpa [isSeek] using hseek
  have hnul : (0 : UInt8) ∈ (inBuffer bytes).take 19 := by
    rw [inBuffer_eq, List.take_append, List.take_replicate]
    apply List.mem_append_right
    rw [List.mem_replicate]
    exact ⟨by simp only [READ_WRITE_SIZE]; omega, rfl⟩
  rw [htake] at hnul
  exact absurd hnul (by decide)

/-- Of what follows the special string five bytes are copied, which the block has to
have room for. The rest of the block stays as it was allocated. -/
theorem tempString_eq {readBuffer : List UInt8} (htext : text (readBuffer.map some) = .ok bytes)
    (h19 : 19 ≤ bytes.length) :
    tempString readBuffer = if bytes.length < 24 then .error .outOfBounds else
      .ok (((bytes.drop 19).take 5).map some ++ List.replicate (bytes.length - 24) none) := by
  have htail : text ((readBuffer.drop 19).map some) = .ok (bytes.drop 19) := by
    rw [List.map_drop]
    exact text_drop htext h19
  simp only [tempString, bind, Except.bind, htext, textUpTo_of_text 5 htail,
    List.length_replicate]
  by_cases hfits : bytes.length < 24
  · rw [if_pos hfits, if_pos (by omega)]
    rfl
  · have hcopied : ((bytes.drop 19).take 5).length = 5 := by
      rw [List.length_take, List.length_drop]
      omega
    have hpadded : padded 5 ((bytes.drop 19).take 5) = (bytes.drop 19).take 5 := by
      rw [padded, hcopied, Nat.sub_self, List.replicate_zero, List.append_nil]
    have hleft : bytes.length - 19 - 5 = bytes.length - 24 := by omega
    rw [if_neg hfits, if_neg (by omega), hpadded, overwrite, hcopied, List.take_zero,
      List.nil_append, List.drop_replicate, Nat.zero_add, hleft]
    rfl

theorem parseSeekto_eq (h0 : 0 ∉ bytes) (hlen : bytes.length < READ_WRITE_SIZE)
    (h19 : 19 ≤ bytes.length) :
    parseSeekto (inBuffer bytes) = if bytes.length < 24 then .error .outOfBounds else
      seekFields (((bytes.drop 19).take 5).map some ++
        List.replicate (bytes.length - 24) none) := by
  change (tempString (inBuffer bytes)).bind seekFields = _
  rw [tempString_eq (text_inBuffer h0 hlen) h19]
  split <;> rfl

/-- Parsing comes to the same for all buffers with the same 24 bytes, if it does
not fault. -/
theorem parseSeekto_inBuffer (h0 : 0 ∉ bytes) (hlen : bytes.length < READ_WRITE_SIZE)
    (hseek : isSeek (inBuffer bytes) = true) {args : Nat × Nat}
    (h : parseSeekto (inBuffer bytes) = .ok args) :
    24 ≤ bytes.length ∧
      seekFields (((bytes.drop 19).take 5).map some ++ List.replicate 0 none) = .ok args := by
  rw [parseSeekto_eq h0 hlen (length_of_isSeek hseek)] at h
  split at h
  · cases h
  · exact ⟨by omega, seekFields_local h 0⟩

end Parsing

section Meaning
variable {packet : List UInt8} {chunks : List (List UInt8)}

/-- A packet in the chunks it arrives in. -/
structure Segments (packet : List UInt8) (chunks : List (List UInt8)) : Prop where
  flatten : chunks.flatten = packet
  nonempty : ∀ c ∈ chunks, c ≠ []

/-- What a command has added to the device. -/
def Command.bytes : Command → List UInt8
  | .write bytes false => bytes
  | .write _ true => []
  | .seek _ _ => []

/-- No write returned -1. -/
def Taken (cs : List Command) : Prop := ∀ bytes, .write bytes true ∉ cs

/-- There is no seek among the commands, and what they write is the packet. -/
def Stores (packet : List UInt8) (cs : List Command) : Prop :=
  (∀ c o, .seek c o ∉ cs) ∧ cs.flatMap Command.bytes = packet

/-- Two sessions have taken a packet for the same thing: a command, of which
nothing is written, or data. -/
def SameMeaning (packet : List UInt8) (cs₁ cs₂ : List Command) : Prop :=
  if specialString <+: packet then ∃ c o, cs₁ = [.seek c o] ∧ cs₂ = [.seek c o]
  else Stores packet cs₁ ∧ Stores packet cs₂

/-- No chunk makes the buffer look like a seek command, and none but the last
makes it look like the end of the packet. -/
def Clean (under : List UInt8) : List (List UInt8) → Prop
  | [] => True
  | chunk :: chunks => isSeek (inBuffer (lay under chunk)) = false ∧
      (chunks ≠ [] → newline ∉ lay under chunk) ∧ Clean (lay under chunk) chunks

/-- The first chunk of a command is enough to recognise and parse it, and data is
not taken for anything else. -/
def Understood (packet : List UInt8) (chunks : List (List UInt8)) : Prop :=
  if specialString <+: packet then
    ∃ first rest args, chunks = first :: rest ∧ isSeek (inBuffer first) = true ∧
      parseSeekto (inBuffer first) = .ok args
  else Clean [] chunks

@[simp] theorem lay_nil (chunk : List UInt8) : lay [] chunk = chunk := by simp [lay]

theorem Segments.proper (hs : Segments packet chunks) (h0 : 0 ∉ packet)
    (hlen : packet.length < READ_WRITE_SIZE) : ∀ c ∈ chunks, Proper c := by
  intro c hc
  have hsub : c.Sublist packet := hs.flatten ▸ List.sublist_flatten_of_mem hc
  exact ⟨hs.nonempty c hc, fun hm => h0 (hsub.subset hm), Nat.lt_of_le_of_lt hsub.length_le hlen⟩

theorem Segments.length_le (hs : Segments packet chunks) : chunks.length ≤ packet.length := by
  rw [← hs.flatten, List.length_flatten]
  have hone : ∀ n ∈ chunks.map List.length, 1 ≤ n := by
    intro n hn
    obtain ⟨c, hc, rfl⟩ := List.mem_map.mp hn
    exact List.length_pos_iff.mpr (hs.nonempty c hc)
  simpa using List.length_le_sum_of_one_le _ hone

/-- The newline at the end of the packet is in the last chunk. -/
theorem Segments.newline_mem_last {body : List UInt8} (hs : Segments (body ++ [newline]) chunks) :
    ∃ hne : chunks ≠ [], newline ∈ chunks.getLast hne := by
  have hne : chunks ≠ [] := by
    rintro rfl
    have := hs.flatten
    simp at this
  refine ⟨hne, ?_⟩
  have hlast := hs.nonempty _ (List.getLast_mem hne)
  have hflat : (chunks.dropLast.flatten ++ (chunks.getLast hne).dropLast) ++
      [(chunks.getLast hne).getLast hlast] = body ++ [newline] := by
    rw [List.append_assoc, List.dropLast_append_getLast, ← hs.flatten]
    conv_rhs => rw [← List.dropLast_append_getLast hne]
    simp
  have heq : (chunks.getLast hne).getLast hlast = newline := by
    have := (List.append_inj' hflat rfl).2
    simpa using this
  rw [← heq]
  exact List.getLast_mem hlast

theorem Leads.seek_iff {cs : List Command} (h : Leads [] chunks cs) {c o : Nat} :
    cs = [.seek c o] ↔ ∃ first rest, chunks = first :: rest ∧ isSeek (inBuffer first) = true ∧
      parseSeekto (inBuffer first) = .ok (c, o) := by
  cases h with
  | @seek _ first rest hseek =>
    rw [lay_nil] at hseek ⊢
    unfold seekCommand
    constructor
    · intro heq
      split at heq
      · rename_i hparse
        obtain ⟨rfl, rfl⟩ : _ = c ∧ _ = o := by simpa using heq
        exact ⟨first, rest, rfl, hseek, hparse⟩
      · cases heq
    · rintro ⟨_, _, ⟨rfl, rfl⟩, _, hparse⟩
      rw [hparse]
  | refused hseek =>
    rw [lay_nil] at hseek
    simp [hseek]
  | ended hseek =>
    rw [lay_nil] at hseek
    simp [hseek]
  | more hseek =>
    rw [lay_nil] at hseek
    simp [hseek]

/-- What is stored of the chunks is all of them exactly if each is taken as data, and
by the device. -/
theorem Leads.stores_iff {under : List UInt8} {cs : List Command} (h : Leads under chunks cs)
    (hne : ∀ c ∈ chunks, c ≠ []) :
    Stores chunks.flatten cs ↔ Clean under chunks ∧ Taken cs := by
  induction h with
  | @seek under chunk chunks hseek =>
    have hchunk : chunk ≠ [] := hne chunk List.mem_cons_self
    simp only [Clean, hseek, Bool.true_eq_false, false_and, iff_false]
    rintro ⟨hnone, hbytes⟩
    unfold seekCommand at hnone hbytes
    split at hbytes
    · rename_i c o hparse
      simp [hparse] at hnone
    · simp [hchunk] at hbytes
  | @refused under chunk chunks hseek =>
    have hchunk : chunk ≠ [] := hne chunk List.mem_cons_self
    simp [Stores, Taken, Command.bytes, hchunk]
  | @ended under chunk chunks hseek hn =>
    simp only [Clean, hseek, hn, true_and, not_true_eq_false, imp_false, not_not]
    constructor
    · rintro ⟨_, hbytes⟩
      have hnil : chunks.flatten = [] := by simpa [Command.bytes] using hbytes
      have hchunks : chunks = [] := by
        by_contra hsome
        obtain ⟨c, cs, rfl⟩ := List.exists_cons_of_ne_nil hsome
        simp [hne c (by simp)] at hnil
      exact ⟨⟨hchunks, by rw [hchunks]; trivial⟩, by simp [Taken]⟩
    · rintro ⟨⟨rfl, _⟩, _⟩
      simp [Stores, Command.bytes]
  | @more under chunk chunks cs hseek hn _ ih =>
    have hrest := ih (fun c hc => hne c (List.mem_cons_of_mem _ hc))
    have hstores : Stores (chunk :: chunks).flatten (.write chunk false :: cs) ↔
        Stores chunks.flatten cs := by
      simp [Stores, Command.bytes]
    have htaken : Taken (.write chunk false :: cs) ↔ Taken cs := by simp [Taken]
    rw [hstores, htaken, hrest, Clean]
    simp [hseek, hn]

/-- The commands of a session, from the trace of its run. -/
def deviceCommands {σ : Type} (sys : Sys σ) (limit skt : Nat) (fd : Fd) (s : σ) : List Command :=
  commands ((receiveAndWriteToFile sys.shared limit skt fd).runLocked false
    ⟨s, fun _ => 0, []⟩).state

theorem deviceCommands_leads {σ : Type} {sys : Sys σ} {skt limit : Nat}
    {queue : σ → List (List UInt8)} (hf : Feeds sys skt queue)
    (hend : ∃ body, packet = body ++ [newline]) (h0 : 0 ∉ packet)
    (hlen : packet.length < READ_WRITE_SIZE) (hlimit : READ_WRITE_SIZE ≤ limit) (fd : Fd) {s : σ}
    (hs : Segments packet (queue s)) :
    Leads [] (queue s) (deviceCommands sys limit skt fd s) := by
  obtain ⟨body, rfl⟩ := hend
  obtain ⟨hne, hlast⟩ := hs.newline_mem_last
  have hpos : 0 < limit := Nat.lt_of_lt_of_le (by decide) hlimit
  have hfuel : (queue s).length ≤ limit :=
    Nat.le_trans hs.length_le (Nat.le_of_lt (Nat.lt_of_lt_of_le hlen hlimit))
  have hempty : queue (⟨s, fun _ => 0, []⟩ : Shared σ).inner = queue s := rfl
  obtain ⟨cs, hleads, hcs⟩ := run_receiveLoop hf hpos fd hne (hs.proper h0 hlen) hlast
    List.not_mem_nil (by decide) hfuel hempty
  rw [deviceCommands, receiveAndWriteToFile, blankBuffer_eq, hcs]
  exact hleads

/-- Two chunks that a command starts with and that parse give the same numbers. -/
theorem parse_same {first₁ first₂ : List UInt8} {args₁ args₂ : Nat × Nat} (h0 : 0 ∉ packet)
    (hlen : packet.length < READ_WRITE_SIZE) (hpre₁ : first₁ <+: packet) (hpre₂ : first₂ <+: packet)
    (hseek₁ : isSeek (inBuffer first₁) = true) (hseek₂ : isSeek (inBuffer first₂) = true)
    (hparse₁ : parseSeekto (inBuffer first₁) = .ok args₁)
    (hparse₂ : parseSeekto (inBuffer first₂) = .ok args₂) : args₁ = args₂ := by
  have hfive : ∀ first, first <+: packet → 24 ≤ first.length →
      (first.drop 19).take 5 = (packet.drop 19).take 5 := by
    rintro first ⟨rest, rfl⟩ h24
    rw [List.drop_append_of_le_length (by omega), List.take_append_of_le_length (by simp; omega)]
  have hproper : ∀ first, first <+: packet → 0 ∉ first ∧ first.length < READ_WRITE_SIZE :=
    fun first hpre => ⟨fun hm => h0 (hpre.subset hm), Nat.lt_of_le_of_lt hpre.length_le hlen⟩
  obtain ⟨h24₁, hfields₁⟩ :=
    parseSeekto_inBuffer (hproper _ hpre₁).1 (hproper _ hpre₁).2 hseek₁ hparse₁
  obtain ⟨h24₂, hfields₂⟩ :=
    parseSeekto_inBuffer (hproper _ hpre₂).1 (hproper _ hpre₂).2 hseek₂ hparse₂
  rw [hfive _ hpre₁ h24₁] at hfields₁
  rw [hfive _ hpre₂ h24₂] at hfields₂
  exact Except.ok.inj (hfields₁.symm.trans hfields₂)

/-- Two segmentations of a packet mean the same exactly if each is understood, and
no write to the device fails. -/
theorem segmentation_keeps_meaning_iff {σ : Type} {sys : Sys σ} {skt limit : Nat}
    {queue : σ → List (List UInt8)} {packet : List UInt8} (hf : Feeds sys skt queue)
    (hend : ∃ body, packet = body ++ [newline]) (h0 : 0 ∉ packet)
    (hlen : packet.length < READ_WRITE_SIZE) (hlimit : READ_WRITE_SIZE ≤ limit) (fd : Fd)
    {s₁ s₂ : σ} (hs₁ : Segments packet (queue s₁)) (hs₂ : Segments packet (queue s₂)) :
    SameMeaning packet (deviceCommands sys limit skt fd s₁) (deviceCommands sys limit skt fd s₂) ↔
      (Understood packet (queue s₁) ∧ Taken (deviceCommands sys limit skt fd s₁)) ∧
      Understood packet (queue s₂) ∧ Taken (deviceCommands sys limit skt fd s₂) := by
  have hl₁ := deviceCommands_leads hf hend h0 hlen hlimit fd hs₁
  have hl₂ := deviceCommands_leads hf hend h0 hlen hlimit fd hs₂
  rw [SameMeaning, Understood, Understood]
  by_cases hspecial : specialString <+: packet
  · simp only [hspecial, ↓reduceIte]
    constructor
    · rintro ⟨c, o, he₁, he₂⟩
      obtain ⟨first₁, rest₁, hq₁, hseek₁, hparse₁⟩ := hl₁.seek_iff.mp he₁
      obtain ⟨first₂, rest₂, hq₂, hseek₂, hparse₂⟩ := hl₂.seek_iff.mp he₂
      rw [he₁, he₂]
      exact ⟨⟨⟨first₁, rest₁, _, hq₁, hseek₁, hparse₁⟩, by simp [Taken]⟩,
        ⟨first₂, rest₂, _, hq₂, hseek₂, hparse₂⟩, by simp [Taken]⟩
    · rintro ⟨⟨⟨first₁, rest₁, args₁, hq₁, hseek₁, hparse₁⟩, _⟩,
        ⟨first₂, rest₂, args₂, hq₂, hseek₂, hparse₂⟩, _⟩
      have hpre₁ : first₁ <+: packet := ⟨rest₁.flatten, by rw [← hs₁.flatten, hq₁]; rfl⟩
      have hpre₂ : first₂ <+: packet := ⟨rest₂.flatten, by rw [← hs₂.flatten, hq₂]; rfl⟩
      obtain rfl := parse_same h0 hlen hpre₁ hpre₂ hseek₁ hseek₂ hparse₁ hparse₂
      exact ⟨args₁.1, args₁.2, hl₁.seek_iff.mpr ⟨first₁, rest₁, hq₁, hseek₁, hparse₁⟩,
        hl₂.seek_iff.mpr ⟨first₂, rest₂, hq₂, hseek₂, hparse₂⟩⟩
  · simp only [hspecial, ↓reduceIte]
    rw [← hl₁.stores_iff hs₁.nonempty, ← hl₂.stores_iff hs₂.nonempty, hs₁.flatten, hs₂.flatten]

/-- A system with nothing but what a client sends. -/
def script : Sys (List (List UInt8)) :=
  { openDevice := fun s => (.ok (some 0), s)
    closeDevice := fun _ s => (.ok (), s)
    recv := fun _ s => match s with
      | [] => (.ok (.done []), [])
      | chunk :: chunks => (.ok (.done chunk), chunks)
    send := fun _ bytes s => (.ok (.done bytes.length), s)
    read := fun _ _ s => (.ok (.done (0, [])), s)
    write := fun _ bytes s => (.ok (.done bytes.length), s)
    ioctl := fun _ _ _ s => (.ok 0, s)
    complete := fun _ s => (.ok (), s) }

theorem script_feeds (skt : Nat) : Feeds script skt id where
  recv := by
    rintro _ chunk chunks rfl
    exact ⟨chunks, rfl, rfl⟩
  write _ bytes s := ⟨_, s, rfl, rfl⟩

/-- A short line, in one chunk and in two. -/
theorem segmentation_keeps_line :
    SameMeaning [104, 105, 10] (deviceCommands script READ_WRITE_SIZE 0 none [[104, 105, 10]])
      (deviceCommands script READ_WRITE_SIZE 0 none [[104], [105, 10]]) := by
  have hone : deviceCommands script READ_WRITE_SIZE 0 none [[104, 105, 10]] =
      [.write [104, 105, 10] false] := by decide +kernel
  have htwo : deviceCommands script READ_WRITE_SIZE 0 none [[104], [105, 10]] =
      [.write [104] false, .write [105, 10] false] := by decide +kernel
  refine (segmentation_keeps_meaning_iff (script_feeds 0) ⟨[104, 105], rfl⟩ (by decide) (by decide)
    (Nat.le_refl _) none ⟨rfl, by decide⟩ ⟨rfl, by decide⟩).mpr ⟨⟨?_, ?_⟩, ?_, ?_⟩
  · rw [Understood, if_neg (by decide)]
    exact ⟨by decide +kernel, by decide, trivial⟩
  · simp [hone, Taken]
  · rw [Understood, if_neg (by decide)]
    exact ⟨by decide +kernel, by decide, by decide +kernel, by decide, trivial⟩
  · simp [htwo, Taken]

/-- A seek command, in one chunk and in two. In the second case its two halves are
written to the device. -/
theorem segmentation_changes_command :
    ∃ packet, packet = specialString ++ [48, 44, 49, 44, 10] ∧
      deviceCommands script READ_WRITE_SIZE 0 none [packet] = [.seek 0 1] ∧
      deviceCommands script READ_WRITE_SIZE 0 none [packet.take 9, packet.drop 9] =
        [.write (packet.take 9) false, .write (packet.drop 9) false] ∧
      ¬ SameMeaning packet (deviceCommands script READ_WRITE_SIZE 0 none [packet])
        (deviceCommands script READ_WRITE_SIZE 0 none [packet.take 9, packet.drop 9]) := by
  have hone : deviceCommands script READ_WRITE_SIZE 0 none
      [specialString ++ [48, 44, 49, 44, 10]] = [.seek 0 1] := by decide +kernel
  have htwo : deviceCommands script READ_WRITE_SIZE 0 none
      [(specialString ++ [48, 44, 49, 44, 10]).take 9,
        (specialString ++ [48, 44, 49, 44, 10]).drop 9] =
      [.write ((specialString ++ [48, 44, 49, 44, 10]).take 9) false,
        .write ((specialString ++ [48, 44, 49, 44, 10]).drop 9) false] := by decide +kernel
  refine ⟨_, rfl, hone, htwo, ?_⟩
  rw [hone, htwo, SameMeaning, if_pos (List.prefix_append _ _)]
  rintro ⟨c, o, _, hseek⟩
  cases hseek

end Meaning

end Aesd.Proofs
