import Aesd.Proofs.Files
import Mathlib.Data.List.Infix

namespace Aesd.Proofs
open Base Driver Server CString Segments

/-- The bytes in the device, oldest packet first. -/
def content (w : World) : List UInt8 :=
  match ringTexts w.kernel with
  | .ok texts => texts.flatten
  | .error _ => []

/-- What has been read and not been sent yet. -/
def ahead : Place → List UInt8
  | .pending _ _ bytes => bytes
  | _ => []

section Device
variable {g : Groups UInt8} {w : World}

theorem content_of_keeps (hk : Keeps w.kernel g) : content w = (g.messages.rtake 10).flatten := by
  rw [content, hk.ringTexts]

/-- What is read from a located position is what stands there. -/
theorem prefix_of_locate {texts : List (List UInt8)} {p i j : Nat}
    (h : locate (lengths texts) p = some (i, j)) :
    (texts.getD i []).drop j <+: texts.flatten.drop p := by
  rw [drop_flatten h]
  exact List.prefix_append _ _

/-- Reading moves the position on by what was read. -/
theorem sizeT_after {g : Groups UInt8} {k : Kernel} (hk : Keeps k g) {p : Int} {i j n : Nat}
    (h : locate (lengths (g.messages.rtake 10)) (sizeT p) = some (i, j))
    (hn : n = ((g.messages.rtake 10).getD i []).length - j) :
    sizeT (loff (p + n)) = sizeT p + n := by
  have hend := locate_end_le h
  have htotal := hk.total_lt
  have hmod : sizeT (loff (p + n)) = sizeT (p + n) := by
    rw [sizeT, loff, sizeT]
    exact congrArg Int.toNat Int.bmod_emod
  rw [hmod]
  unfold sizeT at *
  omega

theorem length_ringSlots {k : Kernel} (hk : Keeps k g) :
    (ringSlots k.dev.buffer).length = (g.messages.rtake 10).length := by
  have hsizes := congrArg List.length hk.ringSlots
  simpa using hsizes

/-- As long as no packet ends while the ring is full, the content only grows. -/
theorem content_grows {w' : World} {bytes : List UInt8} (hk : Keeps w.kernel g)
    (hk' : Keeps w'.kernel (g.add newline (visible ⟨bytes, false⟩)))
    (hroom : 10 ≤ (ringSlots w.kernel.dev.buffer).length → newline ∉ bytes) :
    content w <+: content w' := by
  rw [content_of_keeps hk, content_of_keeps hk']
  by_cases hend : newline ∈ visible ⟨bytes, false⟩
  · have hmem : newline ∈ bytes := (List.takeWhile_prefix _).subset hend
    have hlt : (g.messages.rtake 10).length < 10 := by
      rw [← length_ringSlots hk]
      by_contra hfull
      exact hroom (Nat.not_lt.mp hfull) hmem
    have hmessages : (g.add newline (visible ⟨bytes, false⟩)).messages =
        g.messages ++ [(g.rest ++ [visible ⟨bytes, false⟩]).flatten] := by
      simp [Groups.add, hend, Groups.messages]
    rw [hmessages, ← Queue.push_rtake, Queue.push_filling hlt, List.flatten_append]
    exact List.prefix_append _ _
  · have hmessages : (g.add newline (visible ⟨bytes, false⟩)).messages = g.messages := by
      simp [Groups.add, hend, Groups.messages]
    rw [hmessages]

end Device

section Sessions
variable {limit r u : Nat} {stage : Nat → Place} {s s' : System Nat Nat (Shared World) Fault}
  {e : Event Nat Nat}

/-- What the reply of session `r` has shown of the device: what it has sent and
what it has ahead stand in one piece behind position `u`, and it reads on from the
end of that. -/
structure Showing (r u : Nat) (place : Place) (w : World) : Prop where
  shown : w.sent r ++ ahead place <+: (content w).drop u
  position : underWay place = true → ∀ n, openFile place = some n → ∃ p, w.position n = some p ∧
    sizeT p = u + (w.sent r ++ ahead place).length

/-- A step of somebody else. -/
theorem Showing.others {place : Place} {w w' : World} (hs : Showing r u place w)
    (hsent : w'.sent r = w.sent r)
    (hposition : ∀ n, openFile place = some n → w'.position n = w.position n)
    (hcontent : content w <+: content w') : Showing r u place w' where
  shown := by
    rw [hsent]
    exact hs.shown.trans (hcontent.drop u)
  position hunder n hn := by
    rw [hposition n hn, hsent]
    exact hs.position hunder n hn

/-- Two pieces that follow one another are one. -/
theorem prefix_join {α : Type} {l a b : List α} {u : Nat} (ha : a <+: l.drop u)
    (hb : b <+: l.drop (u + a.length)) : a ++ b <+: l.drop u := by
  obtain ⟨rest, hrest⟩ := ha
  rw [← List.drop_drop, ← hrest, List.drop_left] at hb
  rw [← hrest]
  exact (List.prefix_append_right_inj a).mpr hb

/-- A reply that has come to its end, or to nothing, has shown what it has sent. -/
theorem Showing.stop {place place' : Place} {w w' : World} (hs : Showing r u place w)
    (hplace : underWay place' = false) (hsent : w'.sent r = w.sent r)
    (hcontent : content w' = content w) : Showing r u place' w' where
  shown := by
    have hahead : ahead place' = [] := by
      cases place' with
      | pending => cases hplace
      | start | outside | inside | sought | between => rfl
      | replying | replied | marked | finished | crashed => rfl
    rw [hahead, hsent, hcontent, List.append_nil]
    exact (List.prefix_append _ _).trans hs.shown
  position hunder := by cases hplace.symm.trans hunder

/-- The reply has read the rest of a packet and moved on by its length. -/
theorem Showing.got {seek : Bool} {n i j m : Nat} {p : Int} {w w' : World} {g : Groups UInt8}
    (hs : Showing r u (.replying seek (some n)) w) (hk : Keeps w.kernel g)
    (hpos : w.position n = some p)
    (hloc : locate (lengths (g.messages.rtake 10)) (sizeT p) = some (i, j))
    (hm : m = ((g.messages.rtake 10).getD i []).length - j) (hsent : w'.sent r = w.sent r)
    (hcontent : content w' = content w) (hmoved : w'.position n = some (loff (p + m))) :
    Showing r u (.pending seek (some n) (((g.messages.rtake 10).getD i []).drop j)) w' := by
  obtain ⟨p', hpos', hsize⟩ := hs.position rfl n rfl
  obtain rfl := Option.some.inj (hpos.symm.trans hpos')
  simp only [ahead, List.append_nil] at hsize
  have hshown : w.sent r <+: (content w).drop u := by simpa [ahead] using hs.shown
  have hnext := prefix_of_locate hloc
  rw [hsize, ← content_of_keeps hk] at hnext
  refine ⟨?_, fun _ n' hn' => ⟨loff (p + m), ?_, ?_⟩⟩
  · rw [hsent, hcontent]
    exact prefix_join hshown hnext
  · obtain rfl := Option.some.inj hn'
    exact hmoved
  · rw [sizeT_after hk hloc hm, hsize, hsent, ahead, List.length_append, List.length_drop, hm]
    omega

/-- The reply reads. -/
theorem Showing.read {seek : Bool} {fd : Fd} {place' : Place} {w : World} {g : Groups UInt8}
    (hs : Showing r u (.replying seek fd) w) (hk : Keeps w.kernel g)
    (hquiet : refused (World.sys.read fd READ_WRITE_SIZE w).2 = refused w)
    (hafter : AfterRead seek fd (World.sys.read fd READ_WRITE_SIZE w).1 place') :
    Showing r u place' (World.sys.read fd READ_WRITE_SIZE w).2 := by
  have hcontent : content (World.sys.read fd READ_WRITE_SIZE w).2 = content w := by
    rw [content_of_keeps (hk.after_read fd _), content_of_keeps hk]
  have hsent := congrFun (through_read fd READ_WRITE_SIZE w).sent r
  simp only [World.sys, World.read] at hquiet hafter hcontent hsent ⊢
  cases hfile : w.file fd with
  | none =>
    rw [hfile] at hafter hcontent hsent
    cases hafter with
    | failed | crashed => exact hs.stop rfl hsent hcontent
  | some found =>
    obtain ⟨n, p⟩ := found
    obtain ⟨rfl, hpos⟩ := eq_of_file hfile
    obtain ⟨res, k', hrun, hk', hgot⟩ := hk.reads READ_WRITE_SIZE p
    simp only [hfile, hrun] at hquiet hafter hcontent hsent ⊢
    cases hgot hquiet with
    | atEnd =>
      cases hafter with
      | atEnd | crashed => exact hs.stop rfl hsent hcontent
      | got hne => exact absurd rfl hne
    | @rest i j m hloc hm =>
      have hret : World.result (m : Int) ((m : Int).toNat,
          ((g.messages.rtake 10).getD i []).drop j ++ [0]) =
          .done (m, ((g.messages.rtake 10).getD i []).drop j ++ [0]) :=
        if_pos (Int.natCast_nonneg m)
      simp only [hret] at hafter
      have hj := ((locate_some_iff _ _ _ _).mp hloc).1
      rw [getD_lengths] at hj
      cases hafter with
      | atEnd => omega
      | crashed => exact hs.stop rfl hsent hcontent
      | @got _ _ rest hne =>
        -- the bytes behind the rest of the packet are not sent
        have htake : (((g.messages.rtake 10).getD i []).drop j ++ [0] ++ rest).take m =
            ((g.messages.rtake 10).getD i []).drop j := by
          rw [List.append_assoc, List.take_left']
          rw [List.length_drop, hm]
        rw [htake]
        exact hs.got hk hpos hloc hm hsent hcontent (Function.update_self _ _ _)

/-- The reply sends what it has read: all of it, or nothing if the call fails. -/
theorem Showing.send {seek : Bool} {fd : Fd} {bytes : List UInt8} {w : World}
    (hs : Showing r u (.pending seek fd bytes) w) (hwhole : ∀ n, .done n ∉ w.outgoing r) :
    Showing r u (afterSend seek fd bytes (World.sys.send r bytes w).1)
      (World.sys.send r bytes w).2 := by
  have hsent : (World.sys.send r bytes w).2.sent r =
      w.sent r ++ (World.depart bytes (w.outgoing r)).2.1 := Function.update_self _ _ _
  have hret : (World.sys.send r bytes w).1 = .ok (World.depart bytes (w.outgoing r)).1 := rfl
  rcases World.depart_whole bytes hwhole with ⟨hdone, hall⟩ | ⟨hfail, hnone⟩
  · rw [hall] at hsent
    rw [hret, hdone]
    refine ⟨?_, fun _ n hn => ?_⟩
    · change (World.sys.send r bytes w).2.sent r ++ [] <+: _
      rw [hsent, List.append_nil]
      exact hs.shown
    · obtain ⟨p, hpos, hsize⟩ := hs.position rfl n hn
      refine ⟨p, hpos, ?_⟩
      change sizeT p = u + ((World.sys.send r bytes w).2.sent r ++ []).length
      rw [hsent, List.append_nil]
      exact hsize
  · rw [hnone, List.append_nil] at hsent
    rcases hfail with hfail | hfail
    · rw [hret, hfail]
      exact hs.others hsent (fun _ _ => rfl) List.prefix_rfl
    · rw [hret, hfail]
      exact hs.stop rfl hsent rfl

/-- A step of the reply itself. -/
theorem Showing.act {place place' : Place} {m m' : Shared World} {g : Groups UInt8}
    (hs : Showing r u place m.inner) (hunder : underWay place = true)
    (hwhole : ∀ n, .done n ∉ m.inner.outgoing r)
    (hk : Keeps m.inner.kernel g) (hquiet : refused m'.inner = refused m.inner)
    (h : Act World.sys.shared r place m place' m') : Showing r u place' m'.inner := by
  cases h with
  | read hafter => exact hs.read hk hquiet hafter
  | send => exact hs.send hwhole
  | openFirst | recv | ioctl | write | closeFirst | openLast | complete | closeLast
  | closeSought => cases hunder

/-- A step in which no packet is ended while the ring is full. -/
def LeavesRoom (m m' : Shared World) : Prop :=
  10 ≤ (ringSlots m.inner.kernel.dev.buffer).length →
    ∀ bytes failed, m'.calls = m.calls ++ [.write bytes failed] → newline ∉ bytes

theorem LeavesRoom.content {i : Nat} {place place' : Place} {m m' : Shared World}
    {g : Groups UInt8} (hroom : LeavesRoom m m') (hk : Keeps m.inner.kernel g)
    (hquiet : refused m'.inner = refused m.inner)
    (h : Act World.sys.shared i place m place' m') :
    content m.inner <+: content m'.inner := by
  rcases act_keeps h hk hquiet with hk' | ⟨bytes, failed, hcalls, hk'⟩
  · rw [content_of_keeps hk, content_of_keeps hk']
  · exact content_grows hk hk' (fun hfull => hroom hfull bytes failed hcalls)

/-- As long as nothing has been denied to the driver. -/
def ShowingIf (r u : Nat) (place : Place) (w : World) : Prop :=
  refused w = 0 → Showing r u place w

/-- No call on the connection of session `r` is to be short. -/
def Unshortened (r : Nat) (w : World) : Prop := ∀ n, .done n ∉ w.outgoing r

theorem Effect.unshortened {i : Nat} {place place' : Place} {w w' : World}
    (h : Effect i place w place' w') (hw : Unshortened r w) : Unshortened r w' :=
  fun n hn => hw n ((h.outgoing r).subset hn)

theorem ShowingIf.step (hs : ShowingIf r u (stage r) s.mem.inner) (hf : Filed stage s)
    (hunder : underWay (stage r) = true) (hwhole : Unshortened r s.mem.inner)
    (hkind : e.kind ≠ .invoke) (h : System.Step (dataProcessor World.sys.shared limit) s e s')
    (hroom : LeavesRoom s.mem s'.mem) :
    ∃ stage', Filed stage' s' ∧ Unshortened r s'.mem.inner ∧
      ShowingIf r u (stage' r) s'.mem.inner := by
  obtain ⟨place', hf', heffect, hact⟩ := hf.step hkind h
  refine ⟨_, hf', heffect.unshortened hwhole, fun hquiet => ?_⟩
  rcases hact with hact | ⟨hmem, hplace⟩
  · have hle := refused_le hact
    have hbefore : refused s.mem.inner = 0 := by omega
    have hshowing := hs hbefore
    obtain ⟨g, hk⟩ := hf.keeps hbefore
    by_cases hr : r = e.task
    · subst hr
      rw [Function.update_self]
      exact hshowing.act hunder hwhole hk (by omega) hact
    · rw [Function.update_of_ne hr]
      refine hshowing.others (heffect.sent r hr) (fun n hn => ?_)
        (hroom.content hk (by omega) hact)
      exact heffect.elsewhere n (hf.files r n hn).1 (fun hn' => hr (hf.apart _ _ n hn hn'))
  · rw [hmem] at hquiet ⊢
    by_cases hr : r = e.task
    · subst hr
      rw [Function.update_self, hplace hunder]
      exact hs hquiet
    · rw [Function.update_of_ne hr]
      exact hs hquiet

theorem filed_of_reaches {s₀ : System Nat Nat (Shared World) Fault} (h₀ : Filed stage s₀)
    (hwhole : Unshortened r s₀.mem.inner)
    (hs : System.Reaches (dataProcessor World.sys.shared limit) (fun e => e.kind ≠ .invoke) s₀ s) :
    ∃ stage', Filed stage' s ∧ Unshortened r s.mem.inner :=
  hs.invariant (P := fun s => ∃ stage', Filed stage' s ∧ Unshortened r s.mem.inner)
    ⟨stage, h₀, hwhole⟩ (fun _ _ _ ⟨_, hf, hw⟩ hkind h => by
      obtain ⟨_, hf', heffect, _⟩ := hf.step hkind h
      exact ⟨_, hf', heffect.unshortened hw⟩)

/-- The thread is about to read from the device, or to send what it has read. -/
def replying (s : System Nat Nat (Shared World) Fault) (i : Nat) : Bool :=
  match nextCall s i with
  | some .read => true
  | some (.send _ _) => true
  | _ => false

/-- A session reads and sends in its reply only. -/
theorem place_of_call {i : Nat} {place place' : Place} {m m' : Shared World} {c : Call}
    (h : Act World.sys.shared i place m place' m') (hc : m'.calls.getLast? = some c) :
    (c = .read → ∃ seek fd, place = .replying seek fd) ∧
      ∀ skt bytes, c = .send skt bytes → underWay place = true := by
  cases h with
  | @read _ seek fd => exact ⟨fun _ => ⟨seek, fd, rfl⟩, fun _ _ _ => rfl⟩
  | send =>
    simp only [Sys.shared, traced, List.getLast?_concat, Option.some.injEq] at hc
    subst hc
    exact ⟨by simp, fun _ _ _ => rfl⟩
  | openFirst | recv | ioctl | write | closeFirst | openLast | complete | closeLast
  | closeSought =>
    simp only [Sys.shared, traced, List.getLast?_concat, Option.some.injEq] at hc
    subst hc
    simp

theorem Filed.place (hf : Filed stage s) {c : Call} (h : nextCall s r = some c) :
    (c = .read → ∃ seek fd, stage r = .replying seek fd) ∧
      ∀ skt bytes, c = .send skt bytes → underWay (stage r) = true := by
  unfold nextCall at h
  split at h
  · rename_i ht
    obtain ⟨_, hact, _⟩ := hf.staged r _ ht s.mem
    exact place_of_call hact h
  · cases h

theorem Filed.underWay (hf : Filed stage s) (h : replying s r = true) :
    underWay (stage r) = true := by
  unfold replying at h
  split at h
  · rename_i hcall
    obtain ⟨seek, fd, hplace⟩ := (hf.place hcall).1 rfl
    rw [hplace]
    rfl
  · rename_i hcall
    exact (hf.place hcall).2 _ _ rfl
  · cases h

/-- A step that is taken while the reply of session `r` is under way, and in which
no packet is ended while the ring is full. -/
def DuringReply (r : Nat) (s : System Nat Nat (Shared World) Fault) (e : Event Nat Nat)
    (s' : System Nat Nat (Shared World) Fault) : Prop :=
  e.kind ≠ .invoke ∧ replying s r = true ∧ LeavesRoom s.mem s'.mem

theorem showing_of_trace {s₁ s₂ : System Nat Nat (Shared World) Fault}
    {states : List (System Nat Nat (Shared World) Fault)} (hf : Filed stage s₁)
    (hwhole : Unshortened r s₁.mem.inner) (hs : Showing r u (stage r) s₁.mem.inner)
    (htrace : System.Trace (dataProcessor World.sys.shared limit) (DuringReply r) s₁ states s₂) :
    ∃ stage', Filed stage' s₂ ∧ Unshortened r s₂.mem.inner ∧
      ShowingIf r u (stage' r) s₂.mem.inner := by
  induction htrace with
  | start => exact ⟨stage, hf, hwhole, fun _ => hs⟩
  | step _ hok h ih =>
    obtain ⟨hkind, hreply, hroom⟩ := hok
    obtain ⟨stage', hf', hwhole', hs'⟩ := ih
    exact hs'.step hf' (hf'.underWay hreply) hwhole' hkind h hroom

/-- Where the reply begins. -/
theorem Filed.showing (hf : Filed stage s) (hbegin : nextCall s r = some .read)
    (hnone : s.mem.inner.sent r = []) : ∃ u, Showing r u (stage r) s.mem.inner := by
  obtain ⟨seek, fd, hplace⟩ := (hf.place hbegin).1 rfl
  have hfiles := hf.files r
  rw [hplace] at hfiles ⊢
  cases fd with
  | none =>
    refine ⟨0, ?_, by simp [openFile]⟩
    simp [hnone, ahead]
  | some n =>
    obtain ⟨p, hpos⟩ := Option.ne_none_iff_exists'.mp (hfiles n rfl).2
    refine ⟨sizeT p, ?_, fun _ n' hn' => ⟨p, ?_, ?_⟩⟩
    · simp [hnone, ahead]
    · obtain rfl := Option.some.inj hn'
      exact hpos
    · simp [hnone, ahead]

end Sessions

/-- A reply shows the device as it was at one moment, if no packet is ended with a
full ring while the reply is under way and no write to the socket is short. The bytes
sent from the first read on, which no other session adds to, stand in the device in
one piece. -/
theorem reply_shows_one_moment {grant : Nat → Bool} {k₀ : Kernel} {past : Nat → Nat}
    {incoming : Nat → List (Result (List UInt8))} {outgoing : Nat → List (Result Nat)}
    {flags : Nat → Nat} {limit r : Nat} {s₁ s₂ : System Nat Nat (Shared World) Fault}
    {states : List (System Nat Nat (Shared World) Fault)} (hb : Booted grant k₀)
    (hwhole : ∀ n, .done n ∉ outgoing r)
    (hreach : System.Reaches (dataProcessor World.sys.shared limit) (fun e => e.kind ≠ .invoke)
      (sessions limit ⟨World.start k₀ past incoming outgoing, flags, []⟩) s₁)
    (hbegin : nextCall s₁ r = some .read) (hnone : s₁.mem.inner.sent r = [])
    (htrace : System.Trace (dataProcessor World.sys.shared limit) (DuringReply r) s₁ states s₂)
    (hdenied : s₂.mem.inner.kernel.heap.denied = 0) :
    ∃ m ∈ states, s₂.mem.inner.sent r <:+: content m.mem.inner := by
  obtain ⟨stage, hf, hwhole⟩ := filed_of_reaches
    (filed_sessions hb past incoming outgoing flags) hwhole hreach
  obtain ⟨u, hs⟩ := hf.showing hbegin hnone
  obtain ⟨stage', _, _, hs'⟩ := showing_of_trace hf hwhole hs htrace
  refine ⟨s₂, htrace.last_mem, ?_⟩
  have hsent : s₂.mem.inner.sent r <+: (content s₂.mem.inner).drop u :=
    (List.prefix_append _ _).trans (hs' hdenied).shown
  exact hsent.isInfix.trans (List.drop_suffix _ _).isInfix

/-- What the clients send: a packet of one letter each. -/
def letters (i : Nat) : List (List UInt8) := [[UInt8.ofNat (97 + i), 10]]

abbrev lettersStart (limit : Nat) : System Nat Nat (Shared World) Fault :=
  sessions limit ⟨World.online (booted plenty) (fun _ => 0) letters, fun _ => 0, []⟩

/-- Session `i` takes `n` steps. -/
def goes (i n : Nat) : List (Nat × System.Choice Nat) := List.replicate n (i, .go)

/-- The first `n` sessions store their packets, and session 0 goes on to its reply. -/
def storing (n : Nat) : List (Nat × System.Choice Nat) :=
  (List.range n).flatMap (fun i => goes i 5) ++ goes 0 2

/-- The states of a reply of session 0. -/
abbrev replyTrace (limit n : Nat)
    (check : System Nat Nat (Shared World) Fault → System Nat Nat (Shared World) Fault → Bool)
    (schedule : List (Nat × System.Choice Nat)) :
    Option (System Nat Nat (Shared World) Fault ×
      List (System Nat Nat (Shared World) Fault) × System Nat Nat (Shared World) Fault) :=
  (System.exec (dataProcessor World.sys.shared limit) (lettersStart limit) (storing n)).bind
    (fun s => (System.trace (dataProcessor World.sys.shared limit)
      (fun s e s' => decide (e.kind ≠ .invoke) && replying s 0 && check s s') [s] s schedule).map
      (fun found => (s, found)))

theorem of_replyTrace {limit n : Nat}
    {check : System Nat Nat (Shared World) Fault → System Nat Nat (Shared World) Fault → Bool}
    (Ok : System Nat Nat (Shared World) Fault → Event Nat Nat →
      System Nat Nat (Shared World) Fault → Prop)
    {schedule : List (Nat × System.Choice Nat)} {s₁ s₂ : System Nat Nat (Shared World) Fault}
    {states : List (System Nat Nat (Shared World) Fault)}
    (hok : ∀ s e s', e.kind ≠ .invoke → replying s 0 = true → check s s' = true → Ok s e s')
    (h : replyTrace limit n check schedule = some (s₁, states, s₂)) :
    System.Reaches (dataProcessor World.sys.shared limit) (fun e => e.kind ≠ .invoke)
      (lettersStart limit) s₁ ∧
    System.Trace (dataProcessor World.sys.shared limit) Ok s₁ states s₂ := by
  obtain ⟨s, hexec, h⟩ := Option.bind_eq_some_iff.mp h
  obtain ⟨⟨states', s'⟩, htrace, hfound⟩ := Option.map_eq_some_iff.mp h
  simp only [Prod.mk.injEq] at hfound
  obtain ⟨rfl, rfl, rfl⟩ := hfound
  refine ⟨System.Reaches.refl.exec _ (fun s c e s' hc hnext => ?_) hexec,
    System.Trace.start.trace (fun s e s' hcheck => ?_) htrace⟩
  · have hgo : c.2 = .go := by
      simp only [storing, goes, List.mem_append, List.mem_flatMap, List.mem_replicate] at hc
      rcases hc with ⟨_, _, _, rfl⟩ | ⟨_, rfl⟩ <;> rfl
    rw [hgo] at hnext
    exact System.not_invoke_of_next hnext
  · simp only [Bool.and_eq_true, decide_eq_true_eq] at hcheck
    exact hok s e s' hcheck.1.1 hcheck.1.2 hcheck.2

/-- `LeavesRoom`, to be evaluated. -/
def leavesRoom (m m' : Shared World) : Bool :=
  match m'.calls.drop m.calls.length with
  | [.write bytes _] =>
    decide ((ringSlots m.inner.kernel.dev.buffer).length < 10) || decide (newline ∉ bytes)
  | _ => true

theorem leavesRoom_of_check {m m' : Shared World} (h : leavesRoom m m' = true) :
    LeavesRoom m m' := by
  intro hfull bytes failed hcalls
  simp only [leavesRoom, hcalls, List.drop_left, Bool.or_eq_true, decide_eq_true_eq] at h
  exact h.resolve_left (Nat.not_lt.mpr hfull)

/-- A reply with a write in the middle, to a ring with room for it. -/
theorem reply_shows_letters :
    ∃ s₁ s₂ states,
      System.Trace (dataProcessor World.sys.shared 4) (DuringReply 0) s₁ states s₂ ∧
      s₂.mem.inner.sent 0 = [97, 10, 98, 10] ∧
      ∃ m ∈ states, s₂.mem.inner.sent 0 <:+: content m.mem.inner := by
  have hrun : (replyTrace 4 1 (fun s s' => leavesRoom s.mem s'.mem)
      (goes 0 2 ++ goes 1 5 ++ goes 0 3)).map (fun (s₁, _, s₂) => (nextCall s₁ 0,
        s₁.mem.inner.sent 0, s₂.mem.inner.sent 0, s₂.mem.inner.kernel.heap.denied)) =
      some (some .read, [], [97, 10, 98, 10], 0) := by decide +kernel
  obtain ⟨⟨s₁, states, s₂⟩, hs, hobs⟩ := Option.map_eq_some_iff.mp hrun
  simp only [Prod.mk.injEq] at hobs
  obtain ⟨hbegin, hnone, hsent, hdenied⟩ := hobs
  obtain ⟨hreach, htrace⟩ := of_replyTrace (DuringReply 0)
    (fun s e s' hkind hreply hroom => ⟨hkind, hreply, leavesRoom_of_check hroom⟩) hs
  exact ⟨s₁, s₂, states, htrace, hsent, reply_shows_one_moment booted_plenty
    (fun _ => List.not_mem_nil) hreach hbegin hnone htrace hdenied⟩

/-- The letters that reach the client, without that of the second packet. -/
def lettersLeft : List UInt8 :=
  [97, 10, 99, 10, 100, 10, 101, 10, 102, 10, 103, 10, 104, 10, 105, 10, 106, 10, 107, 10]

/-- Ten packets are in the ring when the reply begins. After its first read an
eleventh is stored, and the reply goes on behind the second, which it has not sent. -/
theorem reply_skips_packet :
    ∃ s₁ s₂ states,
      System.Reaches (dataProcessor World.sys.shared 12) (fun e => e.kind ≠ .invoke)
        (lettersStart 12) s₁ ∧
      nextCall s₁ 0 = some .read ∧ s₁.mem.inner.sent 0 = [] ∧
      System.Trace (dataProcessor World.sys.shared 12)
        (fun s e _ => e.kind ≠ .invoke ∧ replying s 0 = true) s₁ states s₂ ∧
      replying s₂ 0 = false ∧ s₂.mem.inner.kernel.heap.denied = 0 ∧
      s₂.mem.inner.sent 0 = lettersLeft ∧
      ∀ m ∈ states, ¬ s₂.mem.inner.sent 0 <:+: content m.mem.inner := by
  have hrun : (replyTrace 12 10 (fun _ _ => true) (goes 0 2 ++ goes 10 5 ++ goes 0 19)).map
      (fun (s₁, states, s₂) => decide (nextCall s₁ 0 = some .read ∧ s₁.mem.inner.sent 0 = [] ∧
        replying s₂ 0 = false ∧ s₂.mem.inner.kernel.heap.denied = 0 ∧
        s₂.mem.inner.sent 0 = lettersLeft ∧
        ∀ m ∈ states, ¬ s₂.mem.inner.sent 0 <:+: content m.mem.inner)) = some true := by
    decide +kernel
  obtain ⟨⟨s₁, states, s₂⟩, hs, hobs⟩ := Option.map_eq_some_iff.mp hrun
  obtain ⟨hbegin, hnone, hend, hdenied, hsent, hmoments⟩ := of_decide_eq_true hobs
  obtain ⟨hreach, htrace⟩ := of_replyTrace
    (fun s e _ => e.kind ≠ .invoke ∧ replying s 0 = true)
    (fun _ _ _ hkind hreply _ => ⟨hkind, hreply⟩) hs
  exact ⟨s₁, s₂, states, hreach, hbegin, hnone, htrace, hend, hdenied, hsent, hmoments⟩

end Aesd.Proofs
