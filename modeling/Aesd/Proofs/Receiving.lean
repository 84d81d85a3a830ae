import Aesd.Server.Trace

namespace Aesd.Proofs
open Base Server CString
open Driver (newline)

section Commands
variable {σ α β : Type} {sys : Sys σ} {held : Bool}

/-- What a session asks of the device, apart from its contents. Of a write it says
whether it returned -1. -/
inductive Command where
  | write (bytes : List UInt8) (failed : Bool)
  | seek (writeCmd writeCmdOffset : Nat)
  deriving DecidableEq

def command : Call → Option Command
  | .write bytes failed => some (.write bytes failed)
  | .ioctl c o => some (.seek c o)
  | _ => none

def commands (s : Shared σ) : List Command := s.calls.filterMap command

/-- Code that leaves the device and the lock alone. -/
def Quiet (held : Bool) (p : Code (Shared σ) Fault α) : Prop :=
  ∀ s, commands (p.runLocked held s).state = commands s ∧
    ∀ a held' t, p.runLocked held s = .returned a held' t → held' = held

theorem Quiet.bind {p : Code (Shared σ) Fault α} {f : α → Code (Shared σ) Fault β}
    (hp : Quiet held p) (hf : ∀ a, Quiet held (f a)) : Quiet held (p >>= f) := by
  intro s
  obtain ⟨hs, hheld⟩ := hp s
  rw [Code.runLocked_bind]
  cases hrun : p.runLocked held s with
  | returned a held' t =>
    rw [hrun] at hs
    obtain rfl := hheld a held' t hrun
    obtain ⟨ht, hheld'⟩ := hf a t
    exact ⟨ht.trans hs, hheld'⟩
  | faulted e t =>
    rw [hrun] at hs
    exact ⟨hs, by simp⟩
  | blocked t =>
    rw [hrun] at hs
    exact ⟨hs, by simp⟩

theorem quiet_pure (a : α) : Quiet held (pure a : Code (Shared σ) Fault α) := by
  intro s
  refine ⟨rfl, ?_⟩
  rintro _ _ _ ⟨⟩
  rfl

theorem quiet_fault (e : Fault) : Quiet held (.fault e : Code (Shared σ) Fault α) := by
  intro s
  refine ⟨rfl, ?_⟩
  rintro _ _ _ ⟨⟩

theorem quiet_ofExcept (r : Except Fault α) :
    Quiet held (Code.ofExcept r : Code (Shared σ) Fault α) := by
  cases r with
  | ok a => exact quiet_pure a
  | error e => exact quiet_fault e

theorem commands_traced (f : σ → Except Fault α × σ) (c : Except Fault α → Call) (s : Shared σ) :
    commands (traced f c s).2 = commands s ++ (command (c (f s.inner).1)).toList := by
  cases h : command (c (f s.inner).1) <;> simp [commands, traced, h]

theorem quiet_traced {f : σ → Except Fault α × σ} {c : Call} (hc : command c = none) :
    Quiet held (Code.call (traced f (fun _ => c))) := by
  intro s
  have hsame : commands (traced f (fun _ => c) s).2 = commands s := by
    rw [commands_traced, hc]
    exact List.append_nil _
  rcases hrun : traced f (fun _ => c) s with ⟨r, t⟩
  rw [hrun] at hsame
  cases r with
  | error e =>
    rw [Code.runLocked_call_error hrun]
    exact ⟨hsame, by simp⟩
  | ok a =>
    rw [Code.runLocked_call_ok hrun]
    refine ⟨hsame, ?_⟩
    rintro _ _ _ ⟨⟩
    rfl

theorem quiet_sendLoop (skt : Nat) (bytes : List UInt8) (fuel : Nat) :
    Quiet held (sendLoop sys.shared skt bytes fuel) := by
  induction fuel with
  | zero => exact quiet_fault _
  | succ fuel ih =>
    refine (quiet_traced (c := .send skt bytes) rfl).bind (fun r => ?_)
    cases r with
    | done => exact quiet_pure true
    | eintr => exact ih
    | failed => exact quiet_pure false

theorem quiet_readLoop (skt : Nat) (fd : Fd) (limit fuel : Nat) (buf : List UInt8) :
    Quiet held (readLoop sys.shared skt fd limit fuel buf) := by
  induction fuel generalizing buf with
  | zero => exact quiet_fault _
  | succ fuel ih =>
    refine (quiet_traced (c := .read) rfl).bind (fun r => ?_)
    cases r with
    | eintr => exact ih buf
    | failed => exact quiet_pure ()
    | done res =>
      refine (quiet_ofExcept _).bind (fun buf => ?_)
      split
      · exact quiet_pure ()
      · refine (quiet_ofExcept _).bind (fun bytes =>
          (quiet_sendLoop skt bytes limit).bind (fun ok => ?_))
        split
        · exact ih buf
        · exact quiet_pure ()

/-- Who still has the lock does not get past it. -/
theorem quiet_putChunk_held (skt : Nat) (fd : Fd) (limit : Nat) (buf : List UInt8) (n fuel : Nat) :
    Quiet true (putChunk sys.shared skt fd limit buf n fuel) := by
  cases fuel with
  | zero => exact quiet_fault _
  | succ fuel =>
    intro s
    rw [putChunk, Code.runLocked_lock_held]
    exact ⟨rfl, by simp⟩

theorem quiet_receiveLoop_held (skt : Nat) (fd : Fd) (limit fuel : Nat) (buf : List UInt8) :
    Quiet true (receiveLoop sys.shared skt fd limit fuel buf) := by
  induction fuel generalizing buf with
  | zero => exact quiet_fault _
  | succ fuel ih =>
    refine (quiet_traced (c := .recv skt) rfl).bind (fun r => ?_)
    cases r with
    | eintr => exact ih buf
    | failed => exact quiet_pure 0
    | done chunk =>
      cases chunk with
      | nil => exact ih buf
      | cons b bs =>
        refine (quiet_ofExcept _).bind (fun buf => (quiet_ofExcept _).bind (fun ended =>
          (quiet_putChunk_held skt fd limit buf _ limit).bind (fun res => ?_)))
        cases res with
        | some ret => exact quiet_pure ret
        | none =>
          cases ended with
          | true => exact quiet_pure 0
          | false => exact ih buf

end Commands

section Buffer

/-- The local buffer after `bytes` were stored at its start. -/
def inBuffer (bytes : List UInt8) : List UInt8 := bytes ++ blankBuffer.drop bytes.length

/-- A chunk stored over what there was before. -/
def lay (under chunk : List UInt8) : List UInt8 := chunk ++ under.drop chunk.length

variable {under chunk bytes : List UInt8}

theorem length_lay : (lay under chunk).length = max chunk.length under.length := by
  simp [lay]
  omega

theorem length_lay_lt {n : Nat} (hu : under.length < n) (hc : chunk.length < n) :
    (lay under chunk).length < n := by
  rw [length_lay]
  exact Nat.max_lt.mpr ⟨hc, hu⟩

theorem blankBuffer_eq : blankBuffer = inBuffer [] := by simp [inBuffer]

theorem inBuffer_eq (bytes : List UInt8) :
    inBuffer bytes = bytes ++ List.replicate (READ_WRITE_SIZE - bytes.length) 0 := by
  simp [inBuffer, blankBuffer]

theorem fill_inBuffer (hunder : under.length < READ_WRITE_SIZE)
    (hchunk : chunk.length < READ_WRITE_SIZE) :
    fill (inBuffer under) chunk = .ok (inBuffer (lay under chunk)) := by
  have hlen : (inBuffer under).length = READ_WRITE_SIZE := by
    rw [inBuffer_eq, List.length_append, List.length_replicate]
    omega
  have hrest : READ_WRITE_SIZE - under.length - (chunk.length - under.length) =
      READ_WRITE_SIZE - max chunk.length under.length := by omega
  rw [fill, if_pos (by omega), inBuffer_eq, inBuffer_eq, length_lay, List.drop_append,
    List.drop_replicate, hrest, lay, List.append_assoc]

theorem text_zeros (h0 : 0 ∉ bytes) {n : Nat} (hn : 0 < n) :
    text ((bytes ++ List.replicate n 0).map some) = .ok bytes := by
  obtain ⟨m, rfl⟩ := Nat.exists_eq_succ_of_ne_zero (Nat.ne_of_gt hn)
  rw [List.replicate_succ, List.map_append, List.map_cons]
  exact text_append bytes _ h0

theorem text_inBuffer (h0 : 0 ∉ bytes) (hlen : bytes.length < READ_WRITE_SIZE) :
    text ((inBuffer bytes).map some) = .ok bytes := by
  rw [inBuffer_eq]
  exact text_zeros h0 (Nat.sub_pos_of_lt hlen)

theorem contains_inBuffer (h0 : 0 ∉ bytes) (hlen : bytes.length < READ_WRITE_SIZE) :
    contains newline ((inBuffer bytes).map some) = .ok (decide (newline ∈ bytes)) :=
  contains_of_text (text_inBuffer h0 hlen) (by decide)

theorem take_inBuffer_lay : (inBuffer (lay under chunk)).take chunk.length = chunk := by
  simp [inBuffer, lay, List.append_assoc]

theorem notMem_lay {x : UInt8} (hu : x ∉ under) (hc : x ∉ chunk) : x ∉ lay under chunk := by
  simp only [lay, List.mem_append, not_or]
  exact ⟨hc, fun h => hu (List.mem_of_mem_drop h)⟩

end Buffer

section Rounds
variable {σ : Type} {sys : Sys σ} {skt limit fuel : Nat} {fd : Fd} {s t : σ}
  {buf buf' chunk : List UInt8} {found : Bool}

theorem run_putChunk_data {n m : Nat} (hseek : isSeek buf = false)
    (h : sys.write fd (buf.take n) s = (.ok (.done m), t)) :
    (putChunk sys skt fd limit buf n (fuel + 1)).runLocked false s = .returned none false t := by
  rw [putChunk, Code.runLocked_lock, if_neg Bool.false_ne_true, hseek,
    if_neg Bool.false_ne_true, Code.runLocked_bind, Code.runLocked_call_ok h]
  rfl

theorem run_putChunk_unparsed {n : Nat} {e : Fault} (hseek : isSeek buf = true)
    (hparse : parseSeekto buf = .error e) :
    (putChunk sys skt fd limit buf n (fuel + 1)).runLocked false s = .faulted e s := by
  rw [putChunk, Code.runLocked_lock, if_neg Bool.false_ne_true, if_pos hseek, hparse]
  rfl

theorem run_putChunk_parsed {n c o : Nat} {ret : Int} {held : Bool} {u : σ}
    (hseek : isSeek buf = true) (hparse : parseSeekto buf = .ok (c, o))
    (h : sys.ioctl fd c o s = (.ok ret, t))
    (hreply : (readFileAndSend sys limit skt fd).runLocked false t = .returned () held u) :
    (putChunk sys skt fd limit buf n (fuel + 1)).runLocked false s =
      .returned (some 1) held u := by
  rw [putChunk, Code.runLocked_lock, if_neg Bool.false_ne_true, if_pos hseek, hparse,
    Code.ofExcept_ok_bind]
  dsimp only
  rw [Code.runLocked_bind, Code.runLocked_call_ok h]
  dsimp only
  rw [Code.runLocked_release, Code.runLocked_bind, hreply]
  rfl

/-- What becomes of a round once its chunk has been put. -/
def afterChunk (found : Bool) (next : Bool → σ → Code.Ending σ Fault Int) :
    Code.Ending σ Fault (Option Int) → Code.Ending σ Fault Int
  | .returned (some ret) held t => .returned ret held t
  | .returned none held t => if found then .returned 0 held t else next held t
  | .faulted e t => .faulted e t
  | .blocked t => .blocked t

theorem run_receiveLoop_chunk (h : sys.recv skt s = (.ok (.done chunk), t)) (hne : chunk ≠ [])
    (hfill : fill buf chunk = .ok buf') (hfound : contains newline (buf'.map some) = .ok found) :
    (receiveLoop sys skt fd limit (fuel + 1) buf).runLocked false s =
      afterChunk found (receiveLoop sys skt fd limit fuel buf').runLocked
        ((putChunk sys skt fd limit buf' chunk.length limit).runLocked false t) := by
  obtain ⟨b, bs, rfl⟩ := List.exists_cons_of_ne_nil hne
  rw [receiveLoop, Code.runLocked_bind, Code.runLocked_call_ok h]
  dsimp only
  rw [hfill, Code.ofExcept_ok_bind, hfound, Code.ofExcept_ok_bind, Code.runLocked_bind]
  cases (putChunk sys skt fd limit buf' (b :: bs).length limit).runLocked false t with
  | faulted e u => rfl
  | blocked u => rfl
  | returned res held u =>
    cases res with
    | some ret => rfl
    | none => cases found <;> rfl

end Rounds

section Receiving
variable {σ : Type} {sys : Sys σ} {skt limit : Nat} {fd : Fd} {queue : σ → List (List UInt8)}

/-- The chunks in `queue` are what is going to be received on the connection, and
every write to the device returns, with any result. -/
structure Feeds (sys : Sys σ) (skt : Nat) (queue : σ → List (List UInt8)) : Prop where
  recv : ∀ s chunk chunks, queue s = chunk :: chunks →
    ∃ t, sys.recv skt s = (.ok (.done chunk), t) ∧ queue t = chunks
  write : ∀ fd bytes s, ∃ r t, sys.write fd bytes s = (.ok r, t) ∧ queue t = queue s

/-- The command that a buffer is taken for, if parsing it does not fault. -/
def seekCommand (readBuffer : List UInt8) : List Command :=
  match parseSeekto readBuffer with
  | .ok (c, o) => [.seek c o]
  | .error _ => []

/-- The commands that receiving `chunks` may lead to, with `under` in the buffer. -/
inductive Leads : List UInt8 → List (List UInt8) → List Command → Prop
  | seek {under chunk : List UInt8} {chunks : List (List UInt8)}
      (hseek : isSeek (inBuffer (lay under chunk)) = true) :
      Leads under (chunk :: chunks) (seekCommand (inBuffer (lay under chunk)))
  | refused {under chunk : List UInt8} {chunks : List (List UInt8)}
      (hseek : isSeek (inBuffer (lay under chunk)) = false) :
      Leads under (chunk :: chunks) [.write chunk true]
  | ended {under chunk : List UInt8} {chunks : List (List UInt8)}
      (hseek : isSeek (inBuffer (lay under chunk)) = false) (hn : newline ∈ lay under chunk) :
      Leads under (chunk :: chunks) [.write chunk false]
  | more {under chunk : List UInt8} {chunks : List (List UInt8)} {cs : List Command}
      (hseek : isSeek (inBuffer (lay under chunk)) = false) (hn : newline ∉ lay under chunk)
      (h : Leads (lay under chunk) chunks cs) :
      Leads under (chunk :: chunks) (.write chunk false :: cs)

/-- A chunk that looks like a seek command ends the session, if nothing else. -/
theorem run_putChunk_seek (sys : Sys σ) (skt limit : Nat) (fd : Fd) {buf : List UInt8}
    (n fuel : Nat) (s : Shared σ) (hseek : isSeek buf = true) :
    ∃ out, (putChunk sys.shared skt fd limit buf n (fuel + 1)).runLocked false s = out ∧
      commands out.state = commands s ++ seekCommand buf ∧
      ∀ a held t, out = .returned a held t → a = some 1 := by
  rw [putChunk, Code.runLocked_lock, if_neg Bool.false_ne_true, if_pos hseek]
  unfold seekCommand
  cases parseSeekto buf with
  | error e => exact ⟨.faulted e s, rfl, (List.append_nil _).symm, by simp⟩
  | ok args =>
    obtain ⟨c, o⟩ := args
    have hcommand : commands (sys.shared.ioctl fd c o s).2 = commands s ++ [.seek c o] :=
      commands_traced _ _ s
    rw [Code.ofExcept_ok_bind]
    dsimp only
    rw [Code.runLocked_bind]
    rcases hcall : sys.shared.ioctl fd c o s with ⟨r, t⟩
    rw [hcall] at hcommand
    cases r with
    | error e =>
      rw [Code.runLocked_call_error hcall]
      exact ⟨_, rfl, hcommand, by simp⟩
    | ok ret =>
      rw [Code.runLocked_call_ok hcall]
      dsimp only
      rw [Code.runLocked_release, Code.runLocked_bind]
      have hquiet : commands ((readFileAndSend sys.shared limit skt fd).runLocked false t).state =
          commands t := (quiet_readLoop skt fd limit limit blankBuffer t).1
      cases hrun : (readFileAndSend sys.shared limit skt fd).runLocked false t with
      | returned a held t' =>
        rw [hrun] at hquiet
        refine ⟨_, rfl, hquiet.trans hcommand, ?_⟩
        rintro _ _ _ ⟨⟩
        rfl
      | faulted e t' =>
        rw [hrun] at hquiet
        exact ⟨_, rfl, hquiet.trans hcommand, by simp⟩
      | blocked t' =>
        rw [hrun] at hquiet
        exact ⟨_, rfl, hquiet.trans hcommand, by simp⟩

/-- Any other chunk is written to the device. If that fails, the lock is kept. -/
theorem run_putChunk_write (hf : Feeds sys skt queue) (limit : Nat) (fd : Fd)
    {buf chunk : List UInt8} (fuel : Nat) (s : Shared σ) (hseek : isSeek buf = false)
    (htake : buf.take chunk.length = chunk) :
    ∃ out, (putChunk sys.shared skt fd limit buf chunk.length (fuel + 1)).runLocked false s = out ∧
      ((∃ t, out = .returned none false t ∧ commands t = commands s ++ [.write chunk false] ∧
          queue t.inner = queue s.inner) ∨
        commands out.state = commands s ++ [.write chunk true] ∧
          ∀ a held t, out = .returned a held t → a = none ∧ held = true) := by
  obtain ⟨r, t, hwrite, hq⟩ := hf.write fd chunk s.inner
  have hcall : sys.shared.write fd chunk s = (.ok r, { s with
      inner := t, calls := s.calls ++ [.write chunk (refusedWrite (.ok r))] }) := by
    simp [Sys.shared, traced, hwrite]
  have hcommand : commands ({ s with
      inner := t, calls := s.calls ++ [.write chunk (refusedWrite (.ok r))] } : Shared σ) =
        commands s ++ [.write chunk (refusedWrite (.ok r))] := by
    simp [commands, command]
  rw [putChunk, Code.runLocked_lock, if_neg Bool.false_ne_true, hseek,
    if_neg Bool.false_ne_true, htake, Code.runLocked_bind, Code.runLocked_call_ok hcall]
  refine ⟨_, rfl, ?_⟩
  cases r with
  | done n => exact Or.inl ⟨_, rfl, hcommand, hq⟩
  | failed =>
    refine Or.inr ⟨hcommand, ?_⟩
    rintro _ _ _ ⟨⟩
    exact ⟨rfl, rfl⟩
  | eintr =>
    -- the second round asks for the lock that the first has kept
    refine Or.inr ?_
    dsimp only
    cases fuel with
    | zero => exact ⟨hcommand, by simp [putChunk, Code.runLocked]⟩
    | succ fuel =>
      rw [putChunk, Code.runLocked_lock_held]
      exact ⟨hcommand, by simp⟩

/-- Every chunk has something to say, and no byte of it is NUL. -/
structure Proper (chunk : List UInt8) : Prop where
  nonempty : chunk ≠ []
  nul : 0 ∉ chunk
  short : chunk.length < READ_WRITE_SIZE

/-- A round of receiving, up to where the chunk is put. -/
theorem run_receiveLoop_recv (hf : Feeds sys skt queue) (limit : Nat) (fd : Fd)
    {under chunk : List UInt8} {chunks : List (List UInt8)} (hproper : Proper chunk)
    (hnul : 0 ∉ under) (hshort : under.length < READ_WRITE_SIZE) (fuel : Nat) {s : Shared σ}
    (hq : queue s.inner = chunk :: chunks) :
    ∃ s₁ : Shared σ, queue s₁.inner = chunks ∧ commands s₁ = commands s ∧
      (receiveLoop sys.shared skt fd limit (fuel + 1) (inBuffer under)).runLocked false s =
        afterChunk (decide (newline ∈ lay under chunk))
          (receiveLoop sys.shared skt fd limit fuel (inBuffer (lay under chunk))).runLocked
          ((putChunk sys.shared skt fd limit (inBuffer (lay under chunk)) chunk.length
            limit).runLocked false s₁) := by
  obtain ⟨t, hrecv, ht⟩ := hf.recv s.inner chunk chunks hq
  let s₁ : Shared σ := { s with inner := t, calls := s.calls ++ [.recv skt] }
  have hcall : sys.shared.recv skt s = (.ok (.done chunk), s₁) := by
    simp [Sys.shared, traced, hrecv, s₁]
  refine ⟨s₁, ht, by simp [commands, command, s₁], ?_⟩
  apply run_receiveLoop_chunk hcall hproper.nonempty (fill_inBuffer hshort hproper.short)
  exact contains_inBuffer (notMem_lay hnul hproper.nul) (length_lay_lt hshort hproper.short)

/-- One round of receiving: a seek command, a write that failed, or one that did not
and after which the loop may go on. -/
theorem run_receiveLoop_step (hf : Feeds sys skt queue) (hlimit : 0 < limit) (fd : Fd)
    {under chunk : List UInt8} {chunks : List (List UInt8)} (hproper : Proper chunk)
    (hnul : 0 ∉ under) (hshort : under.length < READ_WRITE_SIZE) (fuel : Nat) {s : Shared σ}
    (hq : queue s.inner = chunk :: chunks) :
    ∃ out, (receiveLoop sys.shared skt fd limit (fuel + 1) (inBuffer under)).runLocked false s =
        out ∧
      ((isSeek (inBuffer (lay under chunk)) = true ∧
          commands out.state = commands s ++ seekCommand (inBuffer (lay under chunk))) ∨
        (isSeek (inBuffer (lay under chunk)) = false ∧
          commands out.state = commands s ++ [.write chunk true]) ∨
        isSeek (inBuffer (lay under chunk)) = false ∧
          ∃ t, queue t.inner = chunks ∧ commands t = commands s ++ [.write chunk false] ∧
            out = if newline ∈ lay under chunk then .returned 0 false t
              else (receiveLoop sys.shared skt fd limit fuel
                (inBuffer (lay under chunk))).runLocked false t) := by
  obtain ⟨s₁, ht, hcommands, hround⟩ :=
    run_receiveLoop_recv hf limit fd hproper hnul hshort fuel hq
  obtain ⟨m, rfl⟩ := Nat.exists_eq_succ_of_ne_zero (Nat.ne_of_gt hlimit)
  rw [hround, ← hcommands]
  cases hseek : isSeek (inBuffer (lay under chunk)) with
  | true =>
    obtain ⟨out, hput, hmore, hone⟩ :=
      run_putChunk_seek sys skt (m + 1) fd chunk.length m s₁ hseek
    rw [hput]
    refine ⟨_, rfl, Or.inl ⟨rfl, ?_⟩⟩
    rw [← hmore]
    cases out with
    | returned a held t =>
      rw [hone a held t rfl]
      rfl
    | faulted e t => rfl
    | blocked t => rfl
  | false =>
    obtain ⟨out, hput, hcases⟩ := run_putChunk_write hf (m + 1) fd m s₁ hseek take_inBuffer_lay
    rw [hput]
    refine ⟨_, rfl, Or.inr ?_⟩
    rcases hcases with ⟨t, rfl, hmore, hqueue⟩ | ⟨hmore, hkept⟩
    · refine Or.inr ⟨rfl, t, hqueue.trans ht, hmore, ?_⟩
      simp [afterChunk]
    · refine Or.inl ⟨rfl, ?_⟩
      rw [← hmore]
      cases out with
      | returned a held t =>
        obtain ⟨rfl, rfl⟩ := hkept a held t rfl
        by_cases hn : newline ∈ lay under chunk
        · simp [hn, afterChunk, Code.Ending.state]
        · simp only [hn, afterChunk, decide_false, Bool.false_eq_true, ↓reduceIte]
          exact (quiet_receiveLoop_held skt fd (m + 1) fuel _ t).1
      | faulted e t => rfl
      | blocked t => rfl

/-- Receiving chunks, the last of which has a newline. -/
theorem run_receiveLoop (hf : Feeds sys skt queue) (hlimit : 0 < limit) (fd : Fd)
    {chunks : List (List UInt8)} (hne : chunks ≠ []) (hproper : ∀ c ∈ chunks, Proper c)
    (hlast : newline ∈ chunks.getLast hne) {under : List UInt8} (hnul : 0 ∉ under)
    (hshort : under.length < READ_WRITE_SIZE) {fuel : Nat} (hfuel : chunks.length ≤ fuel)
    {s : Shared σ} (hq : queue s.inner = chunks) :
    ∃ cs, Leads under chunks cs ∧
      commands ((receiveLoop sys.shared skt fd limit fuel (inBuffer under)).runLocked
        false s).state = commands s ++ cs := by
  induction chunks generalizing under fuel s with
  | nil => exact absurd rfl hne
  | cons chunk chunks ih =>
    have hchunk := hproper chunk List.mem_cons_self
    obtain ⟨fuel, rfl⟩ : ∃ m, fuel = m + 1 := Nat.exists_eq_succ_of_ne_zero (by
      rintro rfl
      simp at hfuel)
    obtain ⟨out, hrun, hcases⟩ := run_receiveLoop_step hf hlimit fd hchunk hnul hshort fuel hq
    rw [hrun]
    rcases hcases with ⟨hseek, hmore⟩ | ⟨hseek, hmore⟩ | ⟨hseek, t, ht, hmore, rfl⟩
    · exact ⟨_, .seek hseek, hmore⟩
    · exact ⟨_, .refused hseek, hmore⟩
    · by_cases hn : newline ∈ lay under chunk
      · rw [if_pos hn]
        exact ⟨_, .ended hseek hn, hmore⟩
      · rw [if_neg hn]
        -- a chunk without a newline is not the last one
        have hrest : chunks ≠ [] := by
          rintro rfl
          exact hn (List.mem_append_left _ hlast)
        rw [List.getLast_cons hrest] at hlast
        obtain ⟨cs, hleads, hcs⟩ := ih hrest (fun c hc => hproper c (List.mem_cons_of_mem _ hc))
          hlast (notMem_lay hnul hchunk.nul)
          (length_lay_lt hshort hchunk.short)
          (by simpa using hfuel) ht
        refine ⟨_, .more hseek hn hleads, ?_⟩
        rw [hcs, hmore, List.append_assoc]
        rfl

end Receiving

end Aesd.Proofs
