import Aesd.Proofs.Segmentation

namespace Aesd.Proofs
open Base Server CString
open Driver (newline)

section Newline
variable {buf chunk : List UInt8} {chunks : List (List UInt8)}

/-- The local buffer after some chunks, each stored at its start. -/
def received (chunks : List (List UInt8)) : Except Fault (List UInt8) :=
  chunks.foldlM fill blankBuffer

/-- The chunk hides nothing from a search that stops at the first NUL: a newline in
it comes before any NUL, and if there is none, there is a NUL before any newline that
earlier chunks have left behind. -/
def Shows (buf chunk : List UInt8) : Prop :=
  if newline ∈ chunk then newline ∈ chunk.takeWhile (· != 0)
  else 0 ∈ chunk ∨
    0 ∈ buf.drop chunk.length ∧ newline ∉ (buf.drop chunk.length).takeWhile (· != 0)

theorem length_blankBuffer : blankBuffer.length = READ_WRITE_SIZE := List.length_replicate

theorem length_of_fill {buf' : List UInt8} (h : fill buf chunk = .ok buf') :
    buf'.length = buf.length := by
  have hfits : chunk.length ≤ buf.length := by
    unfold fill at h
    split at h
    · assumption
    · cases h
  rw [eq_of_fill h, List.length_append, List.length_drop]
  omega

/-- The run of storing chunk after chunk. -/
theorem foldlM_fill (hlen : ∀ c ∈ chunks, c.length ≤ buf.length) :
    ∃ buf', chunks.foldlM fill buf = .ok buf' ∧ buf'.length = buf.length := by
  induction chunks generalizing buf with
  | nil => exact ⟨buf, rfl, rfl⟩
  | cons c chunks ih =>
    have hfill : fill buf c = .ok (c ++ buf.drop c.length) :=
      if_pos (hlen c List.mem_cons_self)
    have hsame := length_of_fill hfill
    obtain ⟨buf', hrest, hlen'⟩ := ih (fun d hd => by
      rw [hsame]
      exact hlen d (List.mem_cons_of_mem _ hd))
    refine ⟨buf', ?_, hlen'.trans hsame⟩
    rw [List.foldlM_cons, hfill]
    exact hrest

/-- What the search finds in the chunk and what is left behind it. -/
theorem contains_exact_iff (chunk stale : List UInt8) :
    contains newline ((chunk ++ stale).map some) = .ok (decide (newline ∈ chunk)) ↔
      if newline ∈ chunk then newline ∈ chunk.takeWhile (· != 0)
      else 0 ∈ chunk ∨ 0 ∈ stale ∧ newline ∉ stale.takeWhile (· != 0) := by
  have hnl : newline ≠ 0 := by decide
  by_cases hn : newline ∈ chunk
  · rw [if_pos hn, decide_eq_true hn, contains_true_iff hnl]
    by_cases h0 : 0 ∈ chunk
    · rw [takeWhile_append_of_nul h0]
    · rw [takeWhile_append_of_no_nul h0, takeWhile_of_no_nul chunk h0]
      simp [hn]
  · rw [if_neg hn, decide_eq_false hn, contains_false_iff hnl]
    by_cases h0 : 0 ∈ chunk
    · have hnone : newline ∉ chunk.takeWhile (· != 0) :=
        fun hm => hn ((List.takeWhile_sublist _).subset hm)
      rw [takeWhile_append_of_nul h0]
      simp [h0, hnone]
    · rw [takeWhile_append_of_no_nul h0]
      simp [h0, hn]

/-- After any chunks, the search for a newline stays inside the buffer and says whether
there is one in the last chunk, exactly if the chunk shows it. -/
theorem newline_found_exactly_iff (chunks : List (List UInt8)) (chunk : List UInt8)
    (hlen : ∀ c ∈ chunks ++ [chunk], c ≠ [] ∧ c.length ≤ READ_WRITE_SIZE) :
    ∃ buf buf', received chunks = .ok buf ∧ fill buf chunk = .ok buf' ∧
      (contains newline (buf'.map some) = .ok (decide (newline ∈ chunk)) ↔ Shows buf chunk) := by
  have hearlier : ∀ c ∈ chunks, c.length ≤ blankBuffer.length := by
    intro c hc
    rw [length_blankBuffer]
    exact (hlen c (List.mem_append_left _ hc)).2
  obtain ⟨buf, hbuf, hsame⟩ := foldlM_fill hearlier
  have hfits : chunk.length ≤ buf.length := by
    rw [hsame, length_blankBuffer]
    exact (hlen chunk (by simp)).2
  exact ⟨buf, _, hbuf, if_pos hfits, contains_exact_iff chunk _⟩

/-- The second half of a line. -/
theorem newline_found_in_second_chunk :
    ∃ buf buf', received [[104]] = .ok buf ∧ fill buf [105, 10] = .ok buf' ∧
      contains newline (buf'.map some) = .ok true := by
  obtain ⟨buf, buf', hbuf, hfill, hiff⟩ :=
    newline_found_exactly_iff [[104]] [105, 10] (by decide)
  refine ⟨buf, buf', hbuf, hfill, hiff.mpr ?_⟩
  rw [Shows, if_pos (by decide)]
  decide

/-- A newline behind a NUL is not found, and then is by the search after the next
chunk, which has none. A chunk that fills the buffer is searched beyond its end. -/
theorem newline_missed_and_found_late :
    (received [[97, 0, 10]]).map (fun buf => contains newline (buf.map some)) = .ok (.ok false) ∧
      (received [[97, 0, 10], [98, 98]]).map (fun buf => contains newline (buf.map some)) =
        .ok (.ok true) ∧
      (received [List.replicate 1024 97]).map (fun buf => contains newline (buf.map some)) =
        .ok (.error .outOfBounds) := by
  decide +kernel

theorem shows_inBuffer {under : List UInt8} (hn : newline ∉ under)
    (hshort : under.length < READ_WRITE_SIZE) (hchunk : Proper chunk) :
    Shows (inBuffer under) chunk := by
  by_cases hin : newline ∈ chunk
  · rwa [Shows, if_pos hin, takeWhile_of_no_nul chunk hchunk.nul]
  · have hfits := hchunk.short
    rw [Shows, if_neg hin, inBuffer_eq, List.drop_append, List.drop_replicate]
    refine Or.inr ⟨?_, fun hm => ?_⟩
    · apply List.mem_append_right
      rw [List.mem_replicate]
      exact ⟨by omega, rfl⟩
    · rcases List.mem_append.mp ((List.takeWhile_sublist _).subset hm) with hold | hzero
      · exact hn (List.mem_of_mem_drop hold)
      · exact absurd (List.mem_replicate.mp hzero).2 (by decide)

/-- Text without newlines, in chunks that leave room for a terminator, does not get in
the way of the chunk that comes next. -/
theorem received_text_shows {under : List UInt8} (hn : newline ∉ under)
    (hshort : under.length < READ_WRITE_SIZE) (htext : ∀ c ∈ chunks, Proper c ∧ newline ∉ c)
    (hchunk : Proper chunk) :
    ∃ buf, chunks.foldlM fill (inBuffer under) = .ok buf ∧ Shows buf chunk := by
  induction chunks generalizing under with
  | nil => exact ⟨inBuffer under, rfl, shows_inBuffer hn hshort hchunk⟩
  | cons c chunks ih =>
    obtain ⟨hc, hnone⟩ := htext c List.mem_cons_self
    rw [List.foldlM_cons, fill_inBuffer hshort hc.short]
    exact ih (notMem_lay hn hnone) (length_lay_lt hshort hc.short)
      (fun d hd => htext d (List.mem_cons_of_mem _ hd))

/-- So lines of text are told from each other by their newlines. -/
theorem text_shows_newline (htext : ∀ c ∈ chunks, Proper c ∧ newline ∉ c) (hchunk : Proper chunk) :
    ∃ buf, received chunks = .ok buf ∧ Shows buf chunk := by
  rw [received, blankBuffer_eq]
  exact received_text_shows List.not_mem_nil (by decide) htext hchunk

end Newline

section Ending
variable {σ : Type} {sys : Sys σ} {skt limit fuel : Nat} {fd : Fd} {s t : σ}
  {queue : σ → List (Result (List UInt8))} {buf buf' chunk : List UInt8} {found : Bool}
  {results : List (Result (List UInt8))}

/-- A client that closes the connection: `queue` is what `recv` is still going to
return before it returns 0 for good. The device takes every write, and a reply comes
to its end. -/
structure Client (sys : Sys σ) (skt : Nat) (fd : Fd) (queue : σ → List (Result (List UInt8))) :
    Prop where
  recv : ∀ s r rest, queue s = r :: rest → ∃ t, sys.recv skt s = (.ok r, t) ∧ queue t = rest
  closed : ∀ s, queue s = [] → ∃ t, sys.recv skt s = (.ok (.done []), t) ∧ queue t = []
  write : ∀ bytes s, ∃ n t, sys.write fd bytes s = (.ok (.done n), t) ∧ queue t = queue s
  ioctl : ∀ c o s, ∃ ret t, sys.ioctl fd c o s = (.ok ret, t)
  reply : ∀ s, ∃ n, ∀ limit, n ≤ limit →
    ∃ held t, (readFileAndSend sys limit skt fd).runLocked false s = .returned () held t

/-- Something that `recv` returns ends the loop, and nothing faults before: an error
other than EINTR, a chunk of data after which the search finds a newline, or a seek
command that can be parsed. -/
def ends : List UInt8 → List (Result (List UInt8)) → Bool
  | _, [] => false
  | _, .failed :: _ => true
  | buf, .eintr :: rest => ends buf rest
  | buf, .done chunk :: rest =>
    match fill buf chunk with
    | .error _ => false
    | .ok buf =>
      match contains newline (buf.map some) with
      | .error _ => false
      | .ok found => if isSeek buf then (parseSeekto buf).isOk else found || ends buf rest

theorem run_receiveLoop_eintr (h : sys.recv skt s = (.ok .eintr, t)) :
    (receiveLoop sys skt fd limit (fuel + 1) buf).runLocked false s =
      (receiveLoop sys skt fd limit fuel buf).runLocked false t := by
  rw [receiveLoop, Code.runLocked_bind, Code.runLocked_call_ok h]

theorem run_receiveLoop_closed (h : sys.recv skt s = (.ok (.done []), t)) :
    (receiveLoop sys skt fd limit (fuel + 1) buf).runLocked false s =
      (receiveLoop sys skt fd limit fuel buf).runLocked false t := by
  rw [receiveLoop, Code.runLocked_bind, Code.runLocked_call_ok h]

theorem run_receiveLoop_failed (h : sys.recv skt s = (.ok .failed, t)) :
    (receiveLoop sys skt fd limit (fuel + 1) buf).runLocked false s = .returned 0 false t := by
  rw [receiveLoop, Code.runLocked_bind, Code.runLocked_call_ok h]
  rfl

/-- A chunk that does not fit, or that the search runs out of, is the end of the run. -/
theorem run_receiveLoop_fault (h : sys.recv skt s = (.ok (.done chunk), t)) (hne : chunk ≠ [])
    (hbad : (∃ e, fill buf chunk = .error e) ∨
      ∃ buf' e, fill buf chunk = .ok buf' ∧ contains newline (buf'.map some) = .error e) :
    ∃ e, (receiveLoop sys skt fd limit (fuel + 1) buf).runLocked false s = .faulted e t := by
  obtain ⟨b, bs, rfl⟩ := List.exists_cons_of_ne_nil hne
  rw [receiveLoop, Code.runLocked_bind, Code.runLocked_call_ok h]
  dsimp only
  rcases hbad with ⟨e, hfill⟩ | ⟨buf', e, hfill, hsearch⟩
  · rw [hfill]
    exact ⟨e, rfl⟩
  · rw [hfill, Code.ofExcept_ok_bind, hsearch]
    exact ⟨e, rfl⟩

/-- Once the connection is closed, the loop goes round for ever. -/
theorem Client.spins (hcl : Client sys skt fd queue) (limit : Nat) (buf : List UInt8)
    (hq : queue s = []) (fuel : Nat) :
    ∃ t, (receiveLoop sys skt fd limit fuel buf).runLocked false s = .faulted .stuck t := by
  induction fuel generalizing s with
  | zero => exact ⟨s, rfl⟩
  | succ fuel ih =>
    obtain ⟨t, hrecv, ht⟩ := hcl.closed s hq
    rw [run_receiveLoop_closed hrecv]
    exact ih ht

/-- What a chunk adds to the question whether the loop ends. -/
theorem ends_done (buf chunk : List UInt8) (rest : List (Result (List UInt8))) :
    (((∃ e, fill buf chunk = .error e) ∨
        ∃ buf' e, fill buf chunk = .ok buf' ∧ contains newline (buf'.map some) = .error e) ∧
      ends buf (.done chunk :: rest) = false) ∨
    ∃ buf' found, fill buf chunk = .ok buf' ∧ contains newline (buf'.map some) = .ok found ∧
      ends buf (.done chunk :: rest) =
        if isSeek buf' then (parseSeekto buf').isOk else found || ends buf' rest := by
  rw [ends]
  cases hfill : fill buf chunk with
  | error e => exact Or.inl ⟨Or.inl ⟨e, rfl⟩, rfl⟩
  | ok buf' =>
    cases hfound : contains newline (buf'.map some) with
    | error e => exact Or.inl ⟨Or.inr ⟨buf', e, rfl, hfound⟩, by simp only [hfound]⟩
    | ok found => exact Or.inr ⟨buf', found, rfl, hfound, by simp only [hfound]⟩

/-- A chunk of data is written, and the loop goes on if there was no newline. -/
theorem Client.run_data (hcl : Client sys skt fd queue) {rest : List (Result (List UInt8))}
    (hq : queue s = .done chunk :: rest) (hne : chunk ≠ []) (hfill : fill buf chunk = .ok buf')
    (hfound : contains newline (buf'.map some) = .ok found) (hseek : isSeek buf' = false) :
    ∃ t, queue t = rest ∧ ∀ limit fuel,
      (receiveLoop sys skt fd (limit + 1) (fuel + 1) buf).runLocked false s =
        if found then .returned 0 false t
        else (receiveLoop sys skt fd (limit + 1) fuel buf').runLocked false t := by
  obtain ⟨u, hrecv, hu⟩ := hcl.recv s _ rest hq
  obtain ⟨n, t, hwrite, ht⟩ := hcl.write (buf'.take chunk.length) u
  refine ⟨t, ht.trans hu, fun limit fuel => ?_⟩
  rw [run_receiveLoop_chunk hrecv hne hfill hfound, run_putChunk_data hseek hwrite]
  rfl

/-- If nothing ends the loop, no number of rounds is enough. -/
theorem Client.never_returns (hcl : Client sys skt fd queue) (hends : ends buf results = false)
    (hne : ∀ chunk, .done chunk ∈ results → chunk ≠ []) (hq : queue s = results) (limit fuel : Nat)
    (ret : Int) (held : Bool) (t : σ) :
    (receiveLoop sys skt fd (limit + 1) fuel buf).runLocked false s ≠ .returned ret held t := by
  induction results generalizing buf s fuel with
  | nil =>
    obtain ⟨u, hrun⟩ := hcl.spins (limit + 1) buf hq fuel
    rw [hrun]
    nofun
  | cons r rest ih =>
    have hrest : ∀ chunk, .done chunk ∈ rest → chunk ≠ [] :=
      fun chunk hm => hne chunk (List.mem_cons_of_mem _ hm)
    obtain ⟨u, hrecv, hu⟩ := hcl.recv s r rest hq
    cases fuel with
    | zero => nofun
    | succ fuel =>
      cases r with
      | failed => cases hends
      | eintr =>
        rw [run_receiveLoop_eintr hrecv]
        exact ih hends hrest hu fuel
      | done chunk =>
        have hchunk := hne chunk List.mem_cons_self
        rcases ends_done buf chunk rest with ⟨hbad, _⟩ | ⟨buf', found, hfill, hfound, heq⟩
        · obtain ⟨e, hrun⟩ := run_receiveLoop_fault hrecv hchunk hbad
          rw [hrun]
          nofun
        · rw [heq] at hends
          cases hseek : isSeek buf' with
          | true =>
            rw [hseek, if_pos rfl] at hends
            cases hparse : parseSeekto buf' with
            | ok args => simp [hparse, Except.isOk, Except.toBool] at hends
            | error e =>
              rw [run_receiveLoop_chunk hrecv hchunk hfill hfound,
                run_putChunk_unparsed hseek hparse]
              nofun
          | false =>
            rw [hseek, if_neg Bool.false_ne_true, Bool.or_eq_false_iff] at hends
            obtain ⟨rfl, hmore⟩ := hends
            obtain ⟨t', ht', hrun⟩ := hcl.run_data hq hchunk hfill hfound hseek
            rw [hrun]
            exact ih hmore hrest ht' fuel

/-- A seek command that can be parsed is the last thing to be received. -/
theorem Client.run_seek (hcl : Client sys skt fd queue) {rest : List (Result (List UInt8))}
    (hq : queue s = .done chunk :: rest) (hne : chunk ≠ []) (hfill : fill buf chunk = .ok buf')
    (hfound : contains newline (buf'.map some) = .ok found) (hseek : isSeek buf' = true)
    {c o : Nat} (hparse : parseSeekto buf' = .ok (c, o)) :
    ∃ n, ∀ limit fuel, n ≤ limit → ∃ held t,
      (receiveLoop sys skt fd (limit + 1) (fuel + 1) buf).runLocked false s =
        .returned 1 held t := by
  obtain ⟨u, hrecv, _⟩ := hcl.recv s _ rest hq
  obtain ⟨ret, v, hioctl⟩ := hcl.ioctl c o u
  obtain ⟨n, hreply⟩ := hcl.reply v
  refine ⟨n, fun limit fuel hn => ?_⟩
  obtain ⟨held, t, hrun⟩ := hreply (limit + 1) (Nat.le_succ_of_le hn)
  refine ⟨held, t, ?_⟩
  rw [run_receiveLoop_chunk hrecv hne hfill hfound, run_putChunk_parsed hseek hparse hioctl hrun]
  rfl

/-- If something does, the loop gets there. -/
theorem Client.returns (hcl : Client sys skt fd queue) (hends : ends buf results = true)
    (hne : ∀ chunk, .done chunk ∈ results → chunk ≠ []) (hq : queue s = results) :
    ∃ n, ∀ limit fuel, n ≤ limit → results.length ≤ fuel → ∃ ret held t,
      (receiveLoop sys skt fd (limit + 1) fuel buf).runLocked false s = .returned ret held t := by
  induction results generalizing buf s with
  | nil => cases hends
  | cons r rest ih =>
    have hrest : ∀ chunk, .done chunk ∈ rest → chunk ≠ [] :=
      fun chunk hm => hne chunk (List.mem_cons_of_mem _ hm)
    -- there are as many rounds as results, so there is one for the first
    suffices hround : ∃ n, ∀ limit fuel, n ≤ limit → rest.length ≤ fuel → ∃ ret held t,
        (receiveLoop sys skt fd (limit + 1) (fuel + 1) buf).runLocked false s =
          .returned ret held t by
      obtain ⟨n, hall⟩ := hround
      refine ⟨n, fun limit fuel hn hfuel => ?_⟩
      obtain ⟨fuel, rfl⟩ : ∃ m, fuel = m + 1 := Nat.exists_eq_succ_of_ne_zero (by
        rintro rfl
        simp at hfuel)
      exact hall limit fuel hn (by simpa using hfuel)
    obtain ⟨u, hrecv, hu⟩ := hcl.recv s r rest hq
    cases r with
    | failed => exact ⟨0, fun _ _ _ _ => ⟨0, false, u, run_receiveLoop_failed hrecv⟩⟩
    | eintr =>
      obtain ⟨n, hall⟩ := ih hends hrest hu
      refine ⟨n, fun limit fuel hn hfuel => ?_⟩
      rw [run_receiveLoop_eintr hrecv]
      exact hall limit fuel hn hfuel
    | done chunk =>
      have hchunk := hne chunk List.mem_cons_self
      rcases ends_done buf chunk rest with ⟨_, hfalse⟩ | ⟨buf', found, hfill, hfound, heq⟩
      · cases hfalse.symm.trans hends
      rw [heq] at hends
      cases hseek : isSeek buf' with
      | true =>
        rw [hseek, if_pos rfl] at hends
        cases hparse : parseSeekto buf' with
        | error e => simp [hparse, Except.isOk, Except.toBool] at hends
        | ok args =>
          obtain ⟨n, hall⟩ := hcl.run_seek hq hchunk hfill hfound hseek hparse
          exact ⟨n, fun limit fuel hn _ => ⟨1, hall limit fuel hn⟩⟩
      | false =>
        rw [hseek, if_neg Bool.false_ne_true, Bool.or_eq_true_iff] at hends
        obtain ⟨t, ht, hrun⟩ := hcl.run_data hq hchunk hfill hfound hseek
        cases found with
        | true => exact ⟨0, fun limit fuel _ _ => ⟨0, false, t, hrun limit fuel⟩⟩
        | false =>
          obtain ⟨n, hall⟩ := ih (hends.resolve_left Bool.false_ne_true) hrest ht
          refine ⟨n, fun limit fuel hn hfuel => ?_⟩
          rw [hrun]
          exact hall limit fuel hn hfuel

/-- Receiving comes to an end exactly if something ends it. That the client closes the
connection does not. -/
theorem receive_returns_iff {σ : Type} {sys : Sys σ} {skt : Nat} {fd : Fd}
    {queue : σ → List (Result (List UInt8))} (hcl : Client sys skt fd queue) (s : σ)
    (hchunks : ∀ chunk, .done chunk ∈ queue s → chunk ≠ [] ∧ chunk.length ≤ READ_WRITE_SIZE) :
    (∃ limit ret held t, (receiveAndWriteToFile sys limit skt fd).runLocked false s =
      .returned ret held t) ↔ ends blankBuffer (queue s) = true := by
  have hne : ∀ chunk, .done chunk ∈ queue s → chunk ≠ [] := fun chunk hm => (hchunks chunk hm).1
  constructor
  · rintro ⟨limit, ret, held, t, hrun⟩
    by_contra hnot
    rw [Bool.not_eq_true] at hnot
    cases limit with
    | zero => cases hrun
    | succ limit => exact hcl.never_returns hnot hne rfl limit (limit + 1) ret held t hrun
  · intro hends
    obtain ⟨n, hall⟩ := hcl.returns hends hne rfl
    refine ⟨max n (queue s).length + 1, hall _ _ (Nat.le_max_left _ _) ?_⟩
    exact Nat.le_succ_of_le (Nat.le_max_right _ _)

theorem script_client (skt : Nat) (fd : Fd) : Client script skt fd (List.map .done) where
  recv := by
    intro s r rest hq
    obtain ⟨chunk, chunks, rfl, rfl, rfl⟩ := List.map_eq_cons_iff.mp hq
    exact ⟨chunks, rfl, rfl⟩
  closed := by
    intro s hq
    obtain rfl := List.map_eq_nil_iff.mp hq
    exact ⟨[], rfl, rfl⟩
  write bytes s := ⟨_, s, rfl, rfl⟩
  ioctl c o s := ⟨_, s, rfl⟩
  reply := by
    intro s
    refine ⟨1, fun limit hlimit => ⟨false, s, ?_⟩⟩
    obtain ⟨m, rfl⟩ := Nat.exists_eq_succ_of_ne_zero (Nat.ne_of_gt hlimit)
    have hread : script.read fd READ_WRITE_SIZE s = (.ok (.done (0, [])), s) := rfl
    have hfill : fill blankBuffer [] = .ok blankBuffer := if_pos (Nat.zero_le _)
    rw [readFileAndSend, readLoop, Code.runLocked_bind, Code.runLocked_call_ok hread]
    dsimp only
    rw [hfill, Code.ofExcept_ok_bind, if_pos rfl]
    rfl

/-- A line in two chunks. -/
theorem receive_returns_after_line :
    ∃ limit ret held t, (receiveAndWriteToFile script limit 0 none).runLocked false
      [[104], [105, 10]] = .returned ret held t := by
  refine (receive_returns_iff (script_client 0 none) [[104], [105, 10]] ?_).mpr (by decide +kernel)
  intro chunk hm
  obtain rfl | rfl : chunk = [104] ∨ chunk = [105, 10] := by simpa using hm
  all_goals decide

/-- The client sends one byte and closes the connection. However many rounds the loop
is given, it needs more. -/
theorem receive_spins_after_byte :
    ends blankBuffer [.done [97]] = false ∧
      ∀ limit, ∃ t, (receiveAndWriteToFile script limit 0 none).runLocked false [[97]] =
        .faulted .stuck t := by
  refine ⟨by decide +kernel, fun limit => ?_⟩
  cases limit with
  | zero => exact ⟨_, rfl⟩
  | succ limit =>
    have hq : List.map Result.done [[(97 : UInt8)]] = [.done [97]] := rfl
    have hfits : [(97 : UInt8)].length ≤ blankBuffer.length := by
      rw [length_blankBuffer]
      decide
    have hfill : fill blankBuffer [97] = .ok (inBuffer [97]) := if_pos hfits
    have hfound : contains newline ((inBuffer [97]).map some) = .ok false :=
      contains_inBuffer (by decide) (by decide)
    obtain ⟨t, ht, hrun⟩ := (script_client 0 none).run_data hq (by decide) hfill hfound
      (by decide +kernel)
    obtain ⟨u, hspins⟩ := (script_client 0 none).spins (limit + 1) (inBuffer [97]) ht limit
    exact ⟨u, (hrun limit limit).trans hspins⟩

end Ending

end Aesd.Proofs
