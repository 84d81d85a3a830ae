import Aesd.Base.Sources
import Aesd.Base.Threads
import Aesd.Proofs.Drain
import Aesd.Server.World

namespace Aesd.Proofs
open Base Driver Server CString Sharing

section Device
variable {k : Kernel} {g : Groups UInt8} {texts : List (List UInt8)}

/-- Every packet in the ring is one of the texts. -/
def Holding (k : Kernel) (texts : List (List UInt8)) : Prop :=
  ∃ q o, Sound k q o ∧ ∀ p ∈ q, p.text ∈ texts

/-- Every packet in the ring is a message of `g`, and the packet under assembly is
the open one. Other than with `Keeps`, messages may have been lost. -/
def InOrder (k : Kernel) (g : Groups UInt8) : Prop :=
  ∃ q o, Healthy k q o ∧ o.Held ∧ (∀ p ∈ q, p.text ∈ g.messages) ∧ o.text = g.rest.flatten

theorem mem_messages_add {t bytes : List UInt8} (h : t ∈ g.messages) :
    t ∈ (g.add newline bytes).messages := by
  unfold Groups.add
  split
  · simp [Groups.messages] at h ⊢
    exact Or.inl h
  · exact h

theorem InOrder.holding (h : InOrder k g) : Holding k g.messages := by
  obtain ⟨q, o, hk, _, hq, _⟩ := h
  exact ⟨q, o, hk.toSound, hq⟩

theorem Holding.add (h : Holding k g.messages) (bytes : List UInt8) :
    Holding k (g.add newline bytes).messages := by
  obtain ⟨q, o, hk, hq⟩ := h
  exact ⟨q, o, hk, fun p hp => mem_messages_add (hq p hp)⟩

/-- What a call may do to the device that is not a write. -/
structure Calm (k k' : Kernel) : Prop where
  holding : ∀ texts, Holding k texts → Holding k' texts
  inOrder : ∀ g, InOrder k g → InOrder k' g

theorem Calm.refl (k : Kernel) : Calm k k := ⟨fun _ h => h, fun _ h => h⟩

theorem calm_read (buf : UserDest) (fPos : Int) (k : Kernel) :
    Calm k ((aesdRead buf fPos).run false k).2 := by
  refine ⟨fun texts ⟨q, o, hk, hq⟩ => ?_, fun g ⟨q, o, hk, ho, hq, hrest⟩ => ?_⟩
  · obtain ⟨_, k', _, hrun, _, hk', _⟩ := aesd_read_gives buf fPos hk
    rw [hrun]
    exact ⟨q, o, hk', hq⟩
  · obtain ⟨_, k', _, hrun, _, hk', hleaves, _⟩ := aesd_read_gives buf fPos hk.toSound
    rw [hrun]
    exact ⟨q, o, hleaves.healthy hk hk', ho, hq, hrest⟩

/-- A write either adds its bytes and leaves the device in order, or it reports
failure, if it returns at all, and the ring is as it was. -/
theorem InOrder.write {bytes : List UInt8} (fPos : Int) (h : InOrder k g) (hne : bytes ≠ [])
    (h0 : 0 ∉ bytes) :
    (∃ ret k', (aesdWrite ⟨bytes, false⟩ fPos).run false k = (.ok ret, k') ∧ 0 ≤ ret.1 ∧
      InOrder k' (g.add newline bytes)) ∨
    (Holding ((aesdWrite ⟨bytes, false⟩ fPos).run false k).2 g.messages ∧
      ∀ ret, ((aesdWrite ⟨bytes, false⟩ fPos).run false k).1 = .ok ret → ret.1 < 0) := by
  obtain ⟨q, o, hk, ho, hq, hrest⟩ := h
  have hvis : visible ⟨bytes, false⟩ = bytes := takeWhile_of_no_nul bytes h0
  have hdata : (⟨bytes, false⟩ : UserSource).data ≠ [] := hne
  rcases aesd_write_lands fPos hk hdata with
    ⟨e, k', hrun, _, _, _, hring⟩ | ⟨ret, k', q', o', d, hrun, htakes, hk', _⟩ <;> rw [hrun]
  · exact Or.inr ⟨⟨q, o, hring ho, hq⟩, by simp⟩
  · cases htakes with
    | noBuffer => exact Or.inr ⟨⟨q, o, hk'.toSound, hq⟩, by simp [ENOMEM]⟩
    | notGrown => exact Or.inr ⟨⟨q, _, hk'.toSound, hq⟩, by simp [ENOMEM]⟩
    | copyFault hf => simp at hf
    | appended ht hs =>
      obtain rfl := ho.eq_text ht
      rw [ho.not_completes_iff, hvis] at hs
      rw [hvis] at hk'
      refine Or.inl ⟨_, k', rfl, Int.natCast_nonneg _, q, _, hk', trivial, ?_, ?_⟩
      · exact fun p hp => mem_messages_add (hq p hp)
      · simp [Groups.add, hs, hrest]
    | stored ht hs =>
      obtain rfl := ho.eq_text ht
      rw [ho.completes_iff, hvis] at hs
      rw [hvis] at hk'
      refine Or.inl ⟨_, k', rfl, Int.natCast_nonneg _, _, _, hk', trivial, fun p hp => ?_, ?_⟩
      · rcases mem_push hp with hp | rfl
        · exact mem_messages_add (hq p hp)
        · simp [Groups.add, hs, Groups.messages, hrest]
      · simp [Groups.add, hs]
    | dropped hs =>
      rw [ho.completes_iff, hvis] at hs
      refine Or.inl ⟨_, k', rfl, Int.natCast_nonneg _, q, _, hk', trivial, ?_, ?_⟩
      · exact fun p hp => mem_messages_add (hq p hp)
      · simp [Groups.add, hs]

end Device

section Threads

/-- The groups that the writes so far make. -/
def grouped (w : World) : Groups UInt8 := Groups.of newline (w.history.map Prod.snd)

/-- How the threads of the first `n` clients share the system. Each of them alone
takes from its connection and writes to the device under its number; together
they keep up that each has written a part of its packet, in order. The device is
in order whenever the server's lock is free. -/
def clients (n : Nat) (packet : Nat → List UInt8) :
    Sharing Nat World (List (List UInt8) × List (Result (List UInt8))) where
  view i w := (Groups.partsOf i w.history, w.incoming i)
  always w := Holding w.kernel (grouped w).messages ∧ (∀ e ∈ w.history, e.1 < n ∧ e.2 ≠ []) ∧
    ∀ i, (Groups.partsOf i w.history).flatten <+: packet i
  order w := InOrder w.kernel (grouped w)

variable {n i : Nat} {packet : Nat → List UInt8} {h : Hold} {w w' : World} {α β : Type}
  {v : List (List UInt8) × List (Result (List UInt8))}
  {R : Hold → List (List UInt8) × List (Result (List UInt8)) → β → Prop}

/-- A step that writes nothing and takes from no other connection. -/
theorem moves_of_calm (ha : (clients n packet).always w)
    (ho : h = .inside → (clients n packet).order w) (hcalm : Calm w.kernel w'.kernel)
    (hhist : w'.history = w.history) (hin : ∀ j, j ≠ i → w'.incoming j = w.incoming j) :
    (clients n packet).Moves i h h w w' := by
  have hgroups : grouped w' = grouped w := by rw [grouped, hhist, grouped]
  have horder : (clients n packet).order w → (clients n packet).order w' := by
    intro hw
    simp only [clients, hgroups]
    exact hcalm.inOrder _ hw
  refine ⟨⟨?_, ?_, ?_⟩, Iff.rfl, fun hh => horder (ho hh), fun _ => horder, fun j hj => ?_⟩
  · rw [hgroups]
    exact hcalm.holding _ ha.1
  · rw [hhist]
    exact ha.2.1
  · rw [hhist]
    exact ha.2.2
  · simp only [clients, hhist, hin j hj]

/-- A step that neither writes nor takes from a connection. -/
structure Unnoticed (w w' : World) : Prop where
  calm : Calm w.kernel w'.kernel
  history : w'.history = w.history
  incoming : w'.incoming = w.incoming

theorem unnoticed_send (skt : Nat) (bytes : List UInt8) (w : World) :
    Unnoticed w (World.sys.send skt bytes w).2 := ⟨Calm.refl _, rfl, rfl⟩

theorem unnoticed_read (fd : Fd) (count : Nat) (w : World) :
    Unnoticed w (World.sys.read fd count w).2 := by
  simp only [World.sys, World.read]
  split
  · exact ⟨Calm.refl _, rfl, rfl⟩
  · rename_i p _
    have hcalm := calm_read ⟨count, none⟩ p w.kernel
    split <;> rename_i hrun <;> rw [hrun] at hcalm <;> exact ⟨hcalm, rfl, rfl⟩

theorem unnoticed_ioctl (fd : Fd) (c o : Nat) (w : World) :
    Unnoticed w (World.sys.ioctl fd c o w).2 := by
  simp only [World.sys, World.ioctl]
  split
  · exact ⟨Calm.refl _, rfl, rfl⟩
  · rename_i p _
    obtain ⟨res, hrun⟩ := aesd_ioctl_keeps false w.kernel w.past AESDCHAR_IOCSEEKTO (some (c, o)) p
    rw [hrun]
    exact ⟨Calm.refl _, rfl, rfl⟩

theorem safe_unnoticed {f : World → Except Fault α × World} {p : α → Code World Fault β}
    (hf : ∀ w, Unnoticed w (f w).2) (hp : ∀ a, (clients n packet).Safe i R h v (p a)) :
    (clients n packet).Safe i R h v (Code.call f >>= p) := by
  refine (safe_call (Q := fun h' v' _ => h' = h ∧ v' = v) (fun w hv ha ho =>
    ⟨h, ?_, fun a _ => ⟨rfl, ?_⟩⟩)).bind (fun h' v' a hv => ?_)
  · exact moves_of_calm ha ho (hf w).calm (hf w).history (fun j _ => by rw [(hf w).incoming])
  · rw [← hv]
    simp only [clients, (hf w).history, (hf w).incoming]
  · obtain ⟨rfl, rfl⟩ := hv
    exact hp a

/-- Sending the content of the device disturbs nobody. -/
theorem safe_sendLoop (skt : Nat) (bytes : List UInt8) (fuel : Nat) :
    (clients n packet).Safe i (fun h' v' _ => h' = h ∧ v' = v) h v
      (sendLoop World.sys skt bytes fuel) := by
  induction fuel with
  | zero => trivial
  | succ fuel ih =>
    refine safe_unnoticed (unnoticed_send skt bytes) (fun r => ?_)
    split
    · exact ⟨rfl, rfl⟩
    · exact ih
    · exact ⟨rfl, rfl⟩

theorem safe_readLoop (skt : Nat) (fd : Fd) (limit fuel : Nat) (buf : List UInt8) :
    (clients n packet).Safe i (fun _ _ _ => True) h v
      (readLoop World.sys skt fd limit fuel buf) := by
  induction fuel generalizing buf with
  | zero => trivial
  | succ fuel ih =>
    refine safe_unnoticed (unnoticed_read fd _) (fun r => ?_)
    split
    · exact ih buf
    · trivial
    · refine safe_ofExcept (fun buf _ => ?_)
      split
      · trivial
      · refine safe_ofExcept (fun bytes _ => (safe_sendLoop skt bytes limit).bind
          (fun h' v' ok hv => ?_))
        obtain ⟨rfl, rfl⟩ := hv
        split
        · exact ih buf
        · trivial

theorem grouped_concat {bytes : List UInt8} (hhist : w'.history = w.history ++ [(i, bytes)]) :
    grouped w' = (grouped w).add newline bytes := by
  rw [grouped, hhist, List.map_append]
  exact Groups.of_concat bytes _

/-- A step of the thread with the lock that adds bytes of its packet. -/
theorem moves_of_write {bytes : List UInt8} {h' : Hold} (hi : i < n) (hne : bytes ≠ [])
    (ha : (clients n packet).always w)
    (hpre : (Groups.partsOf i w.history).flatten ++ bytes <+: packet i)
    (hhist : w'.history = w.history ++ [(i, bytes)]) (hin : w'.incoming = w.incoming)
    (hhold : Holding w'.kernel (grouped w').messages) (hout : h' ≠ .out)
    (hord : h' = .inside → InOrder w'.kernel (grouped w')) :
    (clients n packet).Moves i .inside h' w w' := by
  refine ⟨⟨hhold, ?_, fun j => ?_⟩, by simp [hout], hord, by simp, fun j hj => ?_⟩
  · rw [hhist]
    intro e he
    rcases List.mem_append.mp he with he | he
    · exact ha.2.1 e he
    · rw [List.mem_singleton.mp he]
      exact ⟨hi, hne⟩
  · by_cases hj : j = i
    · subst hj
      rw [hhist, Groups.partsOf_concat_self, List.flatten_append]
      simpa using hpre
    · rw [hhist, Groups.partsOf_concat_of_ne hj]
      exact ha.2.2 j
  · simp only [clients, hhist, Groups.partsOf_concat_of_ne hj, hin]

/-- A write with the lock held. If it does not succeed, the thread is left with
the lock over a device that may be out of order. -/
theorem safe_write {bytes : List UInt8} (hi : i < n) (hne : bytes ≠ []) (h0 : 0 ∉ bytes)
    (hv : v.1.flatten ++ bytes ++ World.carried v.2 = packet i) :
    (clients n packet).Safe i (fun h' v' r => h' ≠ .out ∧ ∀ c, r = .done c →
        h' = .inside ∧ v'.1.flatten ++ World.carried v'.2 = packet i) .inside v
      (Code.call (World.sys.write (some i) bytes)) := by
  refine safe_call (fun w hview ha ho => ?_)
  subst hview
  have hpre : (Groups.partsOf i w.history).flatten ++ bytes <+: packet i := ⟨_, hv⟩
  simp only [World.sys, World.write]
  cases hfile : w.file (some i) with
  | none =>
    refine ⟨.inside, moves_of_calm ha ho (Calm.refl _) rfl (fun _ _ => rfl), fun r hr => ?_⟩
    obtain rfl : .failed = r := Except.ok.inj hr
    simp
  | some found =>
    obtain ⟨m, p⟩ := found
    obtain rfl : i = m := by
      simp only [World.file, Option.bind_some, Option.map_eq_some_iff, Prod.mk.injEq] at hfile
      obtain ⟨_, _, he, _⟩ := hfile
      exact he
    dsimp only
    rcases InOrder.write p (ho rfl) hne h0 with ⟨ret, k', hrun, hret, hk'⟩ | ⟨hhold, hneg⟩
    · rw [hrun]
      have hord : InOrder k' (grouped { w.moveTo i (if 0 ≤ ret.1 then ret.2 else p) with
          kernel := k', history := w.history ++ [(i, bytes)] }) := by
        rwa [grouped_concat (w := w) rfl]
      refine ⟨.inside, moves_of_write hi hne ha hpre rfl rfl hord.holding (by simp)
        (fun _ => hord), fun r _ => ⟨by simp, fun c _ => ⟨rfl, ?_⟩⟩⟩
      simp only [clients, Groups.partsOf_concat_self, List.flatten_append, List.flatten_singleton]
      exact hv
    · cases hrun : (aesdWrite ⟨bytes, false⟩ p).run false w.kernel with
      | mk r k' =>
        rw [hrun] at hhold hneg
        cases r with
        | error e =>
          refine ⟨.broken, moves_of_write hi hne ha hpre rfl rfl ?_ (by simp) (by simp), by simp⟩
          rw [grouped_concat (w := w) rfl]
          exact hhold.add bytes
        | ok ret =>
          have hlt := hneg ret rfl
          refine ⟨.broken, moves_of_write hi hne ha hpre rfl rfl ?_ (by simp) (by simp),
            fun r hr => ⟨by simp, fun c hc => ?_⟩⟩
          · rw [grouped_concat (w := w) rfl]
            exact hhold.add bytes
          · obtain rfl : _ = r := Except.ok.inj hr
            simp only [World.result, Int.not_le.mpr hlt, ↓reduceIte] at hc
            split at hc <;> cases hc

/-- What a thread knows once a chunk has been dealt with: unless it is stuck with
the lock, the rest of its packet is still to come. -/
def Onward (packet : List UInt8) (h : Hold) (v : List (List UInt8) × List (Result (List UInt8)))
    (ret : Option Int) : Prop :=
  h = .out → ret = none → v.1.flatten ++ World.carried v.2 = packet

/-- With the lock held, waiting for it does not end. -/
theorem safe_putChunk_stuck (skt : Nat) (fd : Fd) (limit : Nat) (buf : List UInt8)
    (bytesRead fuel : Nat) (hh : h ≠ .out) :
    (clients n packet).Safe i (Onward (packet i)) h v
      (putChunk World.sys skt fd limit buf bytesRead fuel) := by
  induction fuel with
  | zero => trivial
  | succ fuel ih => exact safe_lock (fun hout => absurd hout hh) ih

theorem safe_putChunk {chunk : List UInt8} (skt limit : Nat) (buf : List UInt8) (fuel : Nat)
    (hi : i < n) (hne : chunk ≠ []) (h0 : 0 ∉ chunk)
    (hv : v.1.flatten ++ chunk ++ World.carried v.2 = packet i) :
    (clients n packet).Safe i (Onward (packet i)) .out v
      (putChunk World.sys skt (some i) limit (chunk ++ buf) chunk.length fuel) := by
  induction fuel with
  | zero => trivial
  | succ fuel ih =>
    refine safe_lock (fun _ => ?_) ih
    simp only [Bool.false_eq_true, ↓reduceIte]
    split
    · exact safe_ofExcept (fun _ _ => safe_unnoticed (unnoticed_ioctl (some i) _ _) (fun _ =>
        safe_release ((safe_readLoop skt (some i) limit limit _).bind
          (fun _ _ _ _ => safe_pure (fun _ hret => by simp at hret)))))
    · rw [List.take_left]
      refine (safe_write hi hne h0 hv).bind (fun h' v' r ⟨hout, hdone⟩ => ?_)
      split
      · exact safe_putChunk_stuck skt (some i) limit _ _ fuel hout
      · exact fun he => absurd he hout
      · obtain ⟨rfl, hnext⟩ := hdone _ rfl
        exact safe_release (safe_pure (fun _ _ => hnext))

/-- The next segment, or a part of it, comes out of the connection, or the call fails
and nothing does. -/
theorem safe_recv {p : Result (List UInt8) → Code World Fault β}
    (hp : ∀ r rest, World.gained r ++ World.carried rest = World.carried v.2 →
      (clients n packet).Safe i R h (v.1, rest) (p r)) :
    (clients n packet).Safe i R h v (Code.call (World.sys.recv i) >>= p) := by
  refine (safe_call (Q := fun h' v' r => h' = h ∧ ∃ rest, v' = (v.1, rest) ∧
    World.gained r ++ World.carried rest = World.carried v.2) (fun w hv ha ho => ?_)).bind
    (fun h' v' r hr => ?_)
  · subst hv
    refine ⟨h, moves_of_calm ha ho (Calm.refl _) rfl (fun j hj => Function.update_of_ne hj _ _),
      fun r hr => ⟨rfl, (World.arrive (w.incoming i)).2, ?_, ?_⟩⟩
    · simp only [clients, World.sys, World.recv, Function.update_self]
    · obtain rfl : _ = r := Except.ok.inj hr
      exact World.gained_arrive (w.incoming i)
  · obtain ⟨rfl, rest, rfl, hrest⟩ := hr
    exact hp r rest hrest

theorem safe_receiveLoop (limit fuel : Nat) (buf : List UInt8) (hi : i < n) (h0 : 0 ∉ packet i)
    (hv : h = .out → v.1.flatten ++ World.carried v.2 = packet i) :
    (clients n packet).Safe i (fun _ _ _ => True) h v
      (receiveLoop World.sys i (some i) limit fuel buf) := by
  induction fuel generalizing h v buf with
  | zero => trivial
  | succ fuel ih =>
    refine safe_recv (fun r rest hrest => ?_)
    have hnext : h = .out → v.1.flatten ++ World.gained r ++ World.carried rest = packet i := by
      intro hout
      rw [List.append_assoc, hrest, hv hout]
    cases r with
    | eintr => exact ih buf (fun hout => by simpa [World.gained] using hnext hout)
    | failed => trivial
    | done chunk =>
      simp only [World.gained] at hnext
      cases chunk with
      | nil => exact ih buf (fun hout => by simpa using hnext hout)
      | cons b bs =>
        refine safe_ofExcept (fun buf' hfill => safe_ofExcept (fun eop _ => ?_))
        obtain rfl := eq_of_fill hfill
        have hput : (clients n packet).Safe i (Onward (packet i)) h (v.1, rest)
            (putChunk World.sys i (some i) limit ((b :: bs) ++ buf.drop (b :: bs).length)
              (b :: bs).length limit) := by
          by_cases hout : h = .out
          · have hall := hnext hout
            subst hout
            refine safe_putChunk i limit _ limit hi (by simp) (fun hmem => h0 ?_) hall
            rw [← hall]
            exact List.mem_append_left _ (List.mem_append_right _ hmem)
          · exact safe_putChunk_stuck i (some i) limit _ _ limit hout
        refine hput.bind (fun h' v' ret hret => ?_)
        split
        · trivial
        · split
          · trivial
          · exact ih _ (fun hout => hret hout rfl)

end Threads

/-- The thread of client `i`, up to the end of its packet. -/
def receiver (limit i : Nat) : Code World Fault Unit := do
  let _ ← receiveAndWriteToFile World.sys limit i (some i)

/-- The threads of the first `n` clients, none of which has done anything yet. -/
def receivers (limit n : Nat) (w : World) : System Nat Nat World Fault :=
  ⟨w, none, fun _ => false, fun i => if i < n then some ⟨i, receiver limit i⟩ else none⟩

theorem fair_receivers {grant : Nat → Bool} {k₀ : Kernel} {past : Nat → Nat}
    {incoming : Nat → List (Result (List UInt8))} {outgoing : Nat → List (Result Nat)}
    {limit n : Nat} (hb : Booted grant k₀)
    (h0 : ∀ i, i < n → 0 ∉ World.carried (incoming i)) :
    System.Fair (clients n (fun i => World.carried (incoming i))) (fun _ => .out)
      (receivers limit n (World.listening k₀ past n incoming outgoing)) := by
  have horder : InOrder k₀ Groups.empty := ⟨[], .closed, hb.healthy, by simp, by simp, rfl⟩
  refine ⟨⟨horder.holding, by simp [receivers, World.listening, World.start], fun i => ?_⟩,
    fun _ => horder, by simp, by simp, fun i t ht => ?_⟩
  · exact List.nil_prefix
  · simp only [receivers] at ht
    split at ht
    · rename_i hi
      obtain rfl : _ = t := Option.some.inj ht
      exact (safe_receiveLoop limit limit blankBuffer hi (h0 i hi) (fun _ => rfl)).bind
        (fun _ _ _ _ => trivial)
    · cases ht

/-- Clients that take turns keep their packets apart: with chunks written only
while no packet of another client is open, every entry of the ring is the whole
packet of one client. -/
theorem packets_stay_whole {grant : Nat → Bool} {k₀ : Kernel} {past : Nat → Nat}
    {incoming : Nat → List (Result (List UInt8))} {outgoing : Nat → List (Result Nat)}
    {limit n : Nat} {s : System Nat Nat World Fault} (hb : Booted grant k₀)
    (hsegs : ∀ i, i < n → ∃ body, World.carried (incoming i) = body ++ [newline] ∧
      newline ∉ body ∧ 0 ∉ body)
    (hs : System.Reaches (receiver limit) (fun e => e.kind ≠ .invoke)
      (receivers limit n (World.listening k₀ past n incoming outgoing)) s)
    (hapart : Groups.Apart newline s.mem.history) :
    ∃ texts, ringTexts s.mem.kernel = .ok texts ∧
      ∀ t ∈ texts, ∃ i, i < n ∧ t = World.carried (incoming i) := by
  have h0 : ∀ i, i < n → 0 ∉ World.carried (incoming i) := by
    intro i hi
    obtain ⟨body, hbody, _, h0⟩ := hsegs i hi
    rw [hbody]
    simpa [newline] using h0
  have hlast : ∀ i, i < n → newline ∉ (World.carried (incoming i)).dropLast := by
    intro i hi
    obtain ⟨body, hbody, hnew, _⟩ := hsegs i hi
    rwa [hbody, List.dropLast_concat]
  obtain ⟨⟨q, o, hk, hq⟩, hwrites, hpre⟩ := hs.always (fair_receivers hb h0)
  obtain ⟨hmsgs, _⟩ := Groups.messages_of_apart (fun e he => hlast e.1 (hwrites e he).1)
    (fun e he => (hwrites e he).2) hpre hapart
  refine ⟨_, hk.ringTexts, fun t ht => ?_⟩
  obtain ⟨p, hp, rfl⟩ := List.mem_map.mp ht
  obtain ⟨e, he, hte⟩ := hmsgs p.text (hq p hp)
  exact ⟨e.1, (hwrites e he).1, hte⟩

/-- What two clients send: a packet in two chunks with an interruption between them,
and another one in one. -/
abbrev twoPeers : Nat → List (Result (List UInt8))
  | 0 => [.done [97], .eintr, .done [10]]
  | _ => [.done [98, 10]]

/-- The system that the two find. -/
abbrev peerWorld : World :=
  .listening (booted plenty) (fun _ => 0) 2 twoPeers (fun _ => [])

/-- The state after steps of the clients in the given order. -/
abbrev afterSteps (order : List Nat) : Option (System Nat Nat World Fault) :=
  System.exec (receiver 4) (receivers 4 2 peerWorld)
    (order.map (fun i => (i, .go)))

theorem reaches_afterSteps {order : List Nat} {s : System Nat Nat World Fault}
    (h : afterSteps order = some s) :
    System.Reaches (receiver 4) (fun e => e.kind ≠ .invoke)
      (receivers 4 2 peerWorld) s := by
  refine System.Reaches.refl.exec _ (fun s c e s' hc hnext => ?_) h
  obtain ⟨i, _, rfl⟩ := List.mem_map.mp hc
  exact System.not_invoke_of_next hnext

/-- The second client receives its packet while that of the first is open, but
writes it later. -/
theorem packets_of_two_peers :
    ∃ s texts, afterSteps [0, 0, 0, 0, 1, 0, 0, 0, 0, 0, 1, 1, 1] = some s ∧
      ringTexts s.mem.kernel = .ok texts ∧ texts = [[97, 10], [98, 10]] ∧
      ∀ t ∈ texts, ∃ i, i < 2 ∧ t = World.carried (twoPeers i) := by
  have hrun : (afterSteps [0, 0, 0, 0, 1, 0, 0, 0, 0, 0, 1, 1, 1]).map
      (fun s => (s.mem.history, ringTexts s.mem.kernel)) =
        some ([(0, [97]), (0, [10]), (1, [98, 10])], .ok [[97, 10], [98, 10]]) := by decide +kernel
  obtain ⟨s, hs, hmem⟩ := Option.map_eq_some_iff.mp hrun
  obtain ⟨hhist, hring⟩ := Prod.mk.inj hmem
  have hsegs : ∀ i, i < 2 → ∃ body, World.carried (twoPeers i) = body ++ [newline] ∧
      newline ∉ body ∧ 0 ∉ body := by
    intro i hi
    obtain rfl | rfl : i = 0 ∨ i = 1 := by omega
    · exact ⟨[97], rfl, by decide, by decide⟩
    · exact ⟨[98], rfl, by decide, by decide⟩
  obtain ⟨texts, htexts, hall⟩ := packets_stay_whole booted_plenty hsegs (reaches_afterSteps hs)
    (by rw [hhist]; decide)
  obtain rfl : texts = [[97, 10], [98, 10]] := Except.ok.inj (htexts.symm.trans hring)
  exact ⟨s, _, hs, htexts, rfl, hall⟩

/-- The second client comes between the two chunks of the first. Its packet is
stored behind the first chunk, as one entry with it. -/
theorem clients_mix_packets :
    ∃ s, System.Reaches (receiver 4) (fun e => e.kind ≠ .invoke)
        (receivers 4 2 peerWorld) s ∧
      s.mem.kernel.heap.denied = 0 ∧ ringTexts s.mem.kernel = .ok [[97, 98, 10]] ∧
      ∀ i, i < 2 → [97, 98, 10] ≠ World.carried (twoPeers i) := by
  have hrun : (afterSteps [0, 0, 0, 0, 1, 1, 1, 1]).map
      (fun s => (s.mem.kernel.heap.denied, ringTexts s.mem.kernel)) =
        some (0, .ok [[97, 98, 10]]) := by decide +kernel
  obtain ⟨s, hs, hden⟩ := Option.map_eq_some_iff.mp hrun
  obtain ⟨hd, hring⟩ := Prod.mk.inj hden
  exact ⟨s, reaches_afterSteps hs, hd, hring, by decide⟩

end Aesd.Proofs
