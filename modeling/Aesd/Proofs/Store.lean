import Aesd.Base.Groups
import Aesd.Proofs.Seek
import Aesd.Proofs.Serial

namespace Aesd.Proofs
open Base Driver Segments

/-- The packet that is being put together, with the size that the device has on record
for it. One that memory could not be found for is lost, though it may have come to its
end. -/
inductive Assembly where
  | none
  | parts (text : List UInt8) (size : Nat)
  | lost (size : Nat) (ended : Bool)

namespace Assembly

def text : Assembly → List UInt8
  | parts s _ => s
  | _ => []

def size : Assembly → Nat
  | none => 0
  | parts _ n => n
  | lost n _ => n

def ended : Assembly → Bool
  | lost _ e => e
  | _ => false

def Held : Assembly → Prop
  | lost _ _ => False
  | _ => True

/-- What the packet may start with when it is continued. In place of a lost one there
may be any bytes. -/
def Begins (t : List UInt8) : Assembly → Prop
  | none => t = []
  | parts s _ => t = s
  | lost n _ => t.length ≤ n

theorem Held.ended {a : Assembly} (ha : a.Held) : a.ended = false := by
  cases a with
  | none => rfl
  | parts => rfl
  | lost => exact ha.elim

theorem Held.begins_iff {a : Assembly} {t : List UInt8} (ha : a.Held) :
    a.Begins t ↔ t = a.text := by
  cases a with
  | none => exact Iff.rfl
  | parts => exact Iff.rfl
  | lost => exact ha.elim

end Assembly

/-- What the device is for: it keeps the last ten packets written, and the parts of
one that has not come to its end. -/
structure Store where
  packets : List (List UInt8)
  assembly : Assembly
  fits : packets.length ≤ 10

namespace Store

def empty : Store := ⟨[], .none, Nat.zero_le _⟩

/-- The store with another packet under assembly. -/
def assemble (st : Store) (a : Assembly) : Store := { st with assembly := a }

/-- The store with one more packet. The oldest one makes room for it. -/
def keep (st : Store) (packet : List UInt8) : Store where
  packets := Queue.push 10 st.packets packet
  assembly := .none
  fits := Queue.length_push_le 10 st.packets packet

/-- Whether the packet under assembly is complete with these bytes. -/
def closing (st : Store) (buf : UserSource) : Bool :=
  st.assembly.ended || decide (newline ∈ visible buf)

/-- What a write may do: its return value, the position it leaves, the store after it
and how many requests for memory were denied. -/
inductive Writes (st : Store) (buf : UserSource) (fPos : Int) : Int → Int → Store → Nat → Prop
  | noBuffer : Writes st buf fPos (-ENOMEM) fPos st 1
  | copyFault (hf : buf.faults = true) : Writes st buf fPos (-EFAULT) fPos st 0
  | notGrown (ha : st.assembly ≠ .none) :
      Writes st buf fPos (-ENOMEM) fPos
        (st.assemble (.lost st.assembly.size (st.closing buf))) 1
  | appended {t : List UInt8} (ht : st.assembly.Begins t) (hs : st.closing buf = false) :
      Writes st buf fPos buf.count fPos (st.assemble (.parts (t ++ visible buf)
        (st.assembly.size + ((visible buf).length + 1)))) 0
  | stored {t : List UInt8} (ht : st.assembly.Begins t) (hs : st.closing buf = true) :
      Writes st buf fPos buf.count
        (loff (fPos + (st.assembly.size + ((visible buf).length + 1) : Nat)))
        (st.keep (t ++ visible buf)) 0
  | dropped (hs : st.closing buf = true) :
      Writes st buf fPos buf.count
        (loff (fPos + (st.assembly.size + ((visible buf).length + 1) : Nat)))
        (st.assemble .none) 1

/-- What a call on an open file may do, the last argument being the number of requests
for memory that were denied. A seek can be relied on to land where it should as long as
no packet has had to make room. -/
inductive Serves (st : Store) (file : OpenFile) :
    FileCall → Bool → Store → OpenFile → Nat → Prop
  | interrupted {c : FileCall} (hc : FileCall.InRange c) :
      Serves st file c true st (file.answered file.fPos ⟨-ERESTARTSYS, []⟩) 0
  | read {buf : UserDest} {res : ReadResult} {d : Nat} (h : Gives buf file.fPos st.packets res d) :
      Serves st file (.read buf) false st
        (file.answered (if 0 ≤ res.retval then res.fPos else file.fPos)
          ⟨res.retval, res.delivered⟩) d
  | write {buf : UserSource} {retval fPos : Int} {st' : Store} {d : Nat}
      (h : Writes st buf file.fPos retval fPos st' d) :
      Serves st file (.write buf) false st' (file.answered fPos ⟨retval, []⟩) d
  | sought {past : Nat → Nat} {c off : Nat} {packet : List UInt8} {fPos : Int}
      (hp : st.packets[c]? = some packet) (hoff : off ≤ packet.length)
      (hpos : st.packets.length < 10 → fPos = (((lengths st.packets).take c).sum + off : Nat)) :
      Serves st file (.seekto past c off) false st (file.answered fPos ⟨0, []⟩) 0
  | refused {past : Nat → Nat} {c off : Nat} {signal : Bool}
      (hp : ∀ packet, st.packets[c]? = some packet → packet.length < off)
      (hc : signal = true → 10 ≤ c) :
      Serves st file (.seekto past c off) signal st (file.answered file.fPos ⟨-EINVAL, []⟩) 0

/-- Calls on files of any number of tasks, one after the other. -/
inductive Runs {ι : Type} [DecidableEq ι] :
    Store → (ι → OpenFile) → List (Turn ι FileCall) → Store → (ι → OpenFile) → Nat → Prop
  | nil {st : Store} {files : ι → OpenFile} : Runs st files [] st files 0
  | cons {st st' st'' : Store} {files files' : ι → OpenFile} {t : Turn ι FileCall}
      {ts : List (Turn ι FileCall)} {file : OpenFile} {d d' : Nat}
      (h : Serves st (files t.task) t.call t.signal st' file d)
      (hrest : Runs st' (Function.update files t.task file) ts st'' files' d') :
      Runs st files (t :: ts) st'' files' (d + d')

end Store

section Refinement
variable {k k' : Kernel} {st : Store} {file : OpenFile}

def Pending.assembly : Pending → Assembly
  | .closed => .none
  | .opened p n => .parts p.text n
  | .lost n e => .lost n e

section Assembly
variable (o : Pending)

theorem Pending.text_assembly : o.assembly.text = o.text := by cases o <;> rfl

theorem Pending.size_assembly : o.assembly.size = o.size := by cases o <;> rfl

theorem Pending.ended_assembly : o.assembly.ended = o.ended := by cases o <;> rfl

theorem Pending.held_assembly : o.assembly.Held ↔ o.Held := by cases o <;> exact Iff.rfl

theorem Pending.begins_assembly (t : List UInt8) : o.assembly.Begins t ↔ o.Begins t := by
  cases o <;> exact Iff.rfl

end Assembly

/-- The memory of the device holds what is in the store. -/
def Represents (k : Kernel) (st : Store) : Prop :=
  ∃ q o, Healthy k q o ∧ q.map Packet.text = st.packets ∧ o.assembly = st.assembly

theorem Represents.ringTexts (hk : Represents k st) : ringTexts k = .ok st.packets := by
  obtain ⟨q, o, hh, hq, _⟩ := hk
  rw [hh.ringTexts, hq]

theorem Represents.openText (hk : Represents k st) (ha : st.assembly.Held) :
    openText k = .ok st.assembly.text := by
  obtain ⟨q, o, hh, _, ho⟩ := hk
  rw [← ho, o.held_assembly] at ha
  rw [hh.openText ha, ← ho, o.text_assembly]

theorem Booted.represents {grant : Nat → Bool} (hb : Booted grant k) : Represents k .empty :=
  ⟨[], .closed, hb.healthy, rfl, rfl⟩

theorem Reachable.represents (hk : Reachable k) : ∃ st, Represents k st := by
  obtain ⟨q, o, hh⟩ := hk.healthy
  have hfits := hh.ring.holds.fits
  exact ⟨⟨q.map Packet.text, o.assembly, by simpa using hfits⟩, q, o, hh, rfl, rfl⟩

theorem Takes.writes {buf : UserSource} {fPos : Int} {left : List UInt8} {q q' : List Packet}
    {o o' : Pending} {ret : Int × Int} {d : Nat} (h : Takes buf fPos left q o ret q' o' d)
    (hq : q.map Packet.text = st.packets) (ho : o.assembly = st.assembly) :
    ∃ st', st.Writes buf fPos ret.1 ret.2 st' d ∧ q'.map Packet.text = st'.packets ∧
      o'.assembly = st'.assembly := by
  have hbegins : ∀ {t}, o.start left = some t → st.assembly.Begins t := by
    intro t ht
    rw [← ho]
    exact (o.begins_assembly t).mpr (Pending.begins_of_start ht)
  have hsize : o.size = st.assembly.size := by rw [← ho, o.size_assembly]
  have hends : completes o buf = st.closing buf := by
    rw [Store.closing, ← ho, o.ended_assembly, completes]
  cases h with
  | noBuffer => exact ⟨st, .noBuffer, hq, ho⟩
  | copyFault hf => exact ⟨st, .copyFault hf, hq, ho⟩
  | notGrown hopen =>
    rw [hsize, hends]
    refine ⟨_, .notGrown (fun hnone => hopen ?_), hq, rfl⟩
    rw [← ho] at hnone
    cases o with
    | closed => rfl
    | opened | lost => cases hnone
  | appended ht hs =>
    rw [hsize]
    exact ⟨_, .appended (hbegins ht) (hends ▸ hs), hq, rfl⟩
  | @stored id t ht hs =>
    rw [hsize]
    refine ⟨_, .stored (hbegins ht) (hends ▸ hs), ?_, rfl⟩
    change (Queue.push 10 q _).map Packet.text = Queue.push 10 st.packets _
    rw [← hq, Queue.push, Queue.push, Queue.map_rtake, List.map_append]
    rfl
  | dropped hs =>
    rw [hsize]
    exact ⟨st.assemble .none, .dropped (hends ▸ hs), hq, rfl⟩

/-- A write that fails leaves the position, so it does not matter who says so. -/
theorem Store.Writes.fPos_eq {buf : UserSource} {fPos retval pos : Int} {st' : Store} {d : Nat}
    (h : st.Writes buf fPos retval pos st' d) : (if 0 ≤ retval then pos else fPos) = pos := by
  cases h with
  | noBuffer | copyFault | notGrown => simp
  | appended | stored | dropped => simp

theorem seekto_interrupted (past : Nat → Nat) (c off : Nat) (fPos : Int) :
    (aesdIoctl past AESDCHAR_IOCSEEKTO (some (c, off)) fPos).run true k =
      (.ok (if c ≥ 10 then ⟨-EINVAL, fPos, []⟩ else ⟨-ERESTARTSYS, fPos, []⟩), k) := by
  simp only [aesdIoctl, ↓reduceIte, aesdAdjustFileOffset, seekEntry]
  split <;> simp [Code.run_bind, run_mutexLock, run_mutexUnlock]

/-- A seek with the lock. -/
theorem Represents.seeks (hk : Represents k st) (past : Nat → Nat) (c off : Nat) (file : OpenFile) :
    ∃ res, (aesdIoctl past AESDCHAR_IOCSEEKTO (some (c, off)) file.fPos).run false k =
        (.ok res, k) ∧
      st.Serves file (.seekto past c off) false st (file.answered res.fPos ⟨res.retval, []⟩) 0 := by
  obtain ⟨q, o, hh, hq, _⟩ := hk
  have hrun : (aesdIoctl past AESDCHAR_IOCSEEKTO (some (c, off)) file.fPos).run false k = _ :=
    run_aesdAdjustFileOffset
  refine ⟨_, hrun, ?_⟩
  have hfits := hh.ring.holds.fits
  rw [List.length_map] at hfits
  have hget : ∀ i : Nat, st.packets[i]? = q[i]?.map Packet.text := by simp [← hq]
  by_cases hc : c ≥ 10
  · rw [if_pos hc]
    refine .refused (fun packet hp => ?_) (by simp)
    rw [hget, List.getElem?_eq_none (by omega)] at hp
    cases hp
  · rw [if_neg hc, hh.seek_eq (Nat.lt_of_not_le hc)]
    cases hqc : q[c]? with
    | none => exact .refused (fun packet hp => by simp [hget, hqc] at hp) (by simp)
    | some p =>
      dsimp only
      split
      · rename_i hoff
        refine .refused (fun packet hp => ?_) (by simp)
        obtain rfl : p.text = packet := by simpa [hget, hqc] using hp
        exact hoff
      · rename_i hoff
        have hpacket : st.packets[c]? = some p.text := by simp [hget, hqc]
        refine .sought hpacket (Nat.le_of_not_lt hoff) ?_
        intro hlen
        rw [← hq, List.length_map] at hlen
        have hcq : c < q.length := (List.getElem?_eq_some_iff.mp hqc).1
        have hout := hh.ring.holds.start (by simpa using hlen)
        have hp := hh.bounded p (List.mem_of_getElem? hqc)
        have hmax : kmallocMaxSize = 2 ^ 22 := rfl
        have hle := sum_take_le (lengths (q.map Packet.text)) c
        have htotal := hh.total_lt
        dsimp only
        rw [hh.seek_total hcq (by omega) (by omega), loff_of_lt (by omega), hq]

/-- A call of the code is a call of the store. -/
theorem Represents.serves (hk : Represents k st) {c : FileCall} {signal : Bool} {file' : OpenFile}
    (h : c.code.run signal (k, file) = (.ok (), (k', file'))) :
    ∃ st' d, st.Serves file c signal st' file' d ∧ Represents k' st' ∧ denied k' = denied k + d := by
  cases c with
  | read buf =>
    cases signal with
    | true =>
      obtain ⟨rfl, rfl⟩ : k = k' ∧ file.answered file.fPos ⟨-ERESTARTSYS, []⟩ = file' := by
        simpa using (run_read_call (read_interrupted buf file.fPos)).symm.trans h
      exact ⟨st, 0, .interrupted trivial, hk, rfl⟩
    | false =>
      obtain ⟨q, o, hh, hq, ho⟩ := hk
      obtain ⟨res, k₁, d, hrun, hgives, hs, hleaves, hden⟩ :=
        aesd_read_gives buf file.fPos hh.toSound
      cases (run_read_call hrun).symm.trans h
      rw [hq] at hgives
      exact ⟨st, d, .read hgives, ⟨q, o, hleaves.healthy hh hs, hq, ho⟩, hden⟩
  | write buf =>
    cases signal with
    | true =>
      obtain ⟨rfl, rfl⟩ : k = k' ∧ file.answered file.fPos ⟨-ERESTARTSYS, []⟩ = file' := by
        simpa using (run_write_call (write_interrupted buf file.fPos)).symm.trans h
      exact ⟨st, 0, .interrupted trivial, hk, rfl⟩
    | false =>
      obtain ⟨q, o, hh, hq, ho⟩ := hk
      rcases hw : (aesdWrite buf file.fPos).run false k with ⟨r, k₁⟩
      cases r with
      | error e => cases (run_write_call_error hw).symm.trans h
      | ok ret =>
        cases (run_write_call hw).symm.trans h
        obtain ⟨q', o', d, htakes, hh', hden⟩ := hh.write_returned hw
        obtain ⟨st', hwrites, hq', ho'⟩ := htakes.writes hq ho
        refine ⟨st', d, ?_, ⟨q', o', hh', hq', ho'⟩, hden⟩
        rw [hwrites.fPos_eq]
        exact .write hwrites
  | seekto past c off =>
    cases signal with
    | true =>
      obtain ⟨res, hrun, hcall⟩ := run_seekto_call true k file past c off
      cases (seekto_interrupted past c off file.fPos).symm.trans hrun
      cases hcall.symm.trans h
      refine ⟨st, 0, ?_, hk, rfl⟩
      by_cases hc : c ≥ 10
      · rw [if_pos hc]
        refine .refused (fun packet hp => ?_) (fun _ => hc)
        have hlt := (List.getElem?_eq_some_iff.mp hp).1
        have hfits := st.fits
        omega
      · rw [if_neg hc]
        exact .interrupted (Nat.lt_of_not_le hc)
    | false =>
      obtain ⟨res, hrun, hserves⟩ := hk.seeks past c off file
      obtain ⟨res', hrun', hcall⟩ := run_seekto_call false k file past c off
      cases hrun.symm.trans hrun'
      cases hcall.symm.trans h
      exact ⟨st, 0, hserves, hk, rfl⟩

end Refinement

section Runs
variable {ι : Type} [DecidableEq ι] {k : Kernel} {files files' : ι → OpenFile} {st st' : Store}
  {ts : List (Turn ι FileCall)} {d : Nat}

/-- So are calls one after the other, as long as they return. -/
theorem Represents.runs (hk : Represents k st) (hreturn : System.Return FileCall.code ts (k, files)) :
    ∃ st' d, st.Runs files ts st' (System.oneByOne FileCall.code ts (k, files)).2 d ∧
      Represents (System.oneByOne FileCall.code ts (k, files)).1 st' ∧
      denied (System.oneByOne FileCall.code ts (k, files)).1 = denied k + d := by
  induction ts generalizing k files st with
  | nil => exact ⟨st, 0, .nil, hk, rfl⟩
  | cons t ts ih =>
    obtain ⟨hok, hrest⟩ := hreturn
    obtain ⟨st₁, d₁, hserves, hk₁, hd₁⟩ := hk.serves (Prod.ext hok rfl)
    rw [System.alone_eq] at hrest
    obtain ⟨st', d, hruns, hk', hd⟩ := ih hk₁ hrest
    have hfirst : System.oneByOne FileCall.code (t :: ts) (k, files) =
        System.oneByOne FileCall.code ts (System.alone FileCall.code (k, files) t) := rfl
    rw [hfirst, System.alone_eq]
    refine ⟨st', d₁ + d, .cons hserves hruns, hk', ?_⟩
    rw [hd, hd₁, Nat.add_assoc]

/-- The calls on the file of task `i`. -/
def callsOn (i : ι) (ts : List (Turn ι FileCall)) : List FileCall :=
  (ts.filter (fun t => t.task = i)).map Turn.call

theorem callsOn_cons (i : ι) (t : Turn ι FileCall) :
    callsOn i (t :: ts) = (if t.task = i then [t.call] else []) ++ callsOn i ts := by
  unfold callsOn
  by_cases h : t.task = i <;> simp [h]

end Runs

section Interleavings
variable {ι : Type} [DecidableEq ι] {k : Kernel} {files : ι → OpenFile} {st st' : Store}
  {es : List (Event ι (ι × FileCall))} {s : System ι (ι × FileCall) (Kernel × (ι → OpenFile)) Fault}

theorem Calls.refines (hk : Represents k st) (hlog : Calls k files es s) (hfree : s.owner = none) :
    ∃ st' files' d, st.Runs files (System.turns es) st' files' d ∧ Represents s.mem.1 st' ∧
      denied s.mem.1 = denied k + d ∧
      ∀ i, s.tasks i = none → s.mem.2 i = files' i ∧
        callsOn i (System.turns es) = System.returnsOf i es := by
  obtain ⟨q, o, hh, hq⟩ := hk
  have hserial := Calls.serial ⟨q, o, hh⟩ hlog
  obtain ⟨hmem, _, hreturn⟩ := hserial.free hfree
  obtain ⟨st', d, hruns, hk', hd⟩ := Represents.runs ⟨q, o, hh, hq⟩ hreturn
  rw [← hmem] at hk' hd
  exact ⟨st', _, d, hruns, hk', hd, fun i hidle => hserial.own_eq hidle⟩

end Interleavings

section Writers
variable {ι : Type}

/-- What a turn gives the store to keep. -/
def part (t : Turn ι FileCall) : Option (List UInt8) :=
  match t.call with
  | .write buf => if t.signal then none else some (visible buf)
  | _ => none

/-- All that it has been given, in the order of the turns. -/
def partsOf (ts : List (Turn ι FileCall)) : List (List UInt8) := ts.filterMap part

theorem partsOf_cons (t : Turn ι FileCall) (ts : List (Turn ι FileCall)) :
    partsOf (t :: ts) = (part t).toList ++ partsOf ts := by
  unfold partsOf
  cases hpart : part t <;> simp [hpart]

/-- A call that does not fail on account of its caller. -/
def FileCall.Copies : FileCall → Prop
  | .write buf => buf.faults = false
  | _ => True

instance (c : FileCall) : Decidable (FileCall.Copies c) :=
  match c with
  | .write buf => inferInstanceAs (Decidable (buf.faults = false))
  | .read _ | .seekto _ _ _ => inferInstanceAs (Decidable True)

/-- The store has the last ten of the messages, and the parts of the open one. -/
def Store.Has (st : Store) (g : Groups UInt8) : Prop :=
  st.assembly.Held ∧ st.packets = g.messages.rtake 10 ∧ st.assembly.text = g.rest.flatten

theorem Store.closing_of_held {st : Store} (ha : st.assembly.Held) (buf : UserSource) :
    st.closing buf = decide (newline ∈ visible buf) := by simp [closing, ha.ended]

theorem Store.Has.writes {st st' : Store} {g : Groups UInt8} {buf : UserSource}
    {fPos retval pos : Int} (hg : st.Has g) (hf : buf.faults = false)
    (h : st.Writes buf fPos retval pos st' 0) : st'.Has (g.add newline (visible buf)) := by
  obtain ⟨ha, hp, ht⟩ := hg
  cases h with
  | copyFault h => simp [hf] at h
  | appended hb hs =>
    obtain rfl := ha.begins_iff.mp hb
    rw [closing_of_held ha, decide_eq_false_iff_not] at hs
    refine ⟨trivial, ?_, ?_⟩
    · simpa [Groups.add, hs, Groups.messages, assemble] using hp
    · simp [Groups.add, hs, assemble, Assembly.text, ← ht]
  | stored hb hs =>
    obtain rfl := ha.begins_iff.mp hb
    rw [closing_of_held ha, decide_eq_true_eq] at hs
    refine ⟨trivial, ?_, by simp [Groups.add, hs, keep, Assembly.text]⟩
    have hmsg : (g.add newline (visible buf)).messages =
        g.messages ++ [st.assembly.text ++ visible buf] := by
      simp [Groups.add, hs, Groups.messages, ht]
    rw [hmsg, ← Queue.push_rtake, ← hp]
    rfl

theorem Store.Has.serves {st st' : Store} {g : Groups UInt8} {file file' : OpenFile}
    {t : Turn ι FileCall} (hg : st.Has g) (hc : FileCall.Copies t.call)
    (h : st.Serves file t.call t.signal st' file' 0) :
    st'.Has ((part t).toList.foldl (Groups.add newline) g) := by
  obtain ⟨i, c, signal⟩ := t
  cases h with
  | interrupted => cases c <;> exact hg
  | read | sought | refused => exact hg
  | write h => exact hg.writes hc h

variable [DecidableEq ι]

/-- Without a denial nothing that is written is lost, nothing is kept twice, and the
order is that of the turns. -/
theorem Store.Runs.has {st st' : Store} {files files' : ι → OpenFile}
    {ts : List (Turn ι FileCall)} {d : Nat} {g : Groups UInt8} (h : st.Runs files ts st' files' d)
    (hd : d = 0) (hc : ∀ t ∈ ts, FileCall.Copies t.call) (hg : st.Has g) :
    st'.Has ((partsOf ts).foldl (Groups.add newline) g) := by
  induction h generalizing g with
  | nil => exact hg
  | @cons st st₁ st' files files' t ts file d₁ d₂ hserves hrest ih =>
    obtain ⟨rfl, rfl⟩ := Nat.add_eq_zero_iff.mp hd
    have hg₁ := hg.serves (hc t List.mem_cons_self) hserves
    have hrest' := ih rfl (fun t' ht => hc t' (List.mem_cons_of_mem _ ht)) hg₁
    rw [partsOf_cons, List.foldl_append]
    exact hrest'

variable {k : Kernel} {files : ι → OpenFile} {es : List (Event ι (ι × FileCall))}
  {s : System ι (ι × FileCall) (Kernel × (ι → OpenFile)) Fault}

end Writers

section Forward
variable {ι : Type} {st st' : Store}

/-- The store has taken in packets that each end with a part of their own, out of those
that it was given, in order. -/
def Store.Moves (st st' : Store) (given : List (List UInt8)) : Prop :=
  ∃ new parts, st'.packets = (st.packets ++ new).rtake 10 ∧
    List.Forall₂ (fun packet part => part <:+ packet) new parts ∧ parts.Sublist given

theorem Store.moves_of_packets_eq (h : st'.packets = st.packets) (given : List (List UInt8)) :
    st.Moves st' given := by
  refine ⟨[], [], ?_, .nil, List.nil_sublist _⟩
  rw [h, List.append_nil, Queue.rtake_of_le _ st.fits]

theorem Store.Writes.moves {buf : UserSource} {fPos retval pos : Int} {d : Nat}
    (h : st.Writes buf fPos retval pos st' d) : st.Moves st' [visible buf] := by
  cases h with
  | noBuffer | copyFault | notGrown | appended | dropped => exact moves_of_packets_eq rfl _
  | @stored t ht hs =>
    exact ⟨[t ++ visible buf], [visible buf], rfl, .cons (List.suffix_append _ _) .nil,
      List.Sublist.refl _⟩

theorem Store.Serves.moves {file file' : OpenFile} {t : Turn ι FileCall} {d : Nat}
    (h : st.Serves file t.call t.signal st' file' d) : st.Moves st' (part t).toList := by
  obtain ⟨i, c, signal⟩ := t
  cases h with
  | interrupted | read | sought | refused => exact moves_of_packets_eq rfl _
  | write h => exact h.moves

theorem Store.Moves.trans {st'' : Store} {given more : List (List UInt8)} (h : st.Moves st' given)
    (h' : st'.Moves st'' more) : st.Moves st'' (given ++ more) := by
  obtain ⟨new, parts, hp, hall, hsub⟩ := h
  obtain ⟨new', parts', hp', hall', hsub'⟩ := h'
  refine ⟨new ++ new', parts ++ parts', ?_, List.rel_append hall hall', hsub.append hsub'⟩
  rw [hp', hp, Queue.rtake_append_rtake, List.append_assoc]

variable [DecidableEq ι] {files files' : ι → OpenFile} {ts : List (Turn ι FileCall)} {d : Nat}

theorem Store.Runs.moves (h : st.Runs files ts st' files' d) : st.Moves st' (partsOf ts) := by
  induction h with
  | nil => exact moves_of_packets_eq rfl _
  | cons hserves _ ih =>
    rw [partsOf_cons]
    exact hserves.moves.trans ih

variable {k : Kernel} {es : List (Event ι (ι × FileCall))}
  {s : System ι (ι × FileCall) (Kernel × (ι → OpenFile)) Fault}

/-- Memory in which an x is left. -/
def haunted : Nat → Nat → UInt8 := fun _ j => if j = 0 then 120 else 0

/-- A packet whose second part gets no memory, and a write after it. -/
def lostLog : Option (List (Event Nat (Nat × FileCall)) ×
    System Nat (Nat × FileCall) (Kernel × (Nat → OpenFile)) Fault) :=
  System.log (System.ofTask FileCall.code) (fun e => decide (OnOwnFile e)) []
    (.start (loaded (allBut 6) haunted, fun _ => .fresh))
    ((0, .call (0, .write ⟨[104], false⟩)) :: List.replicate 19 (0, .go) ++
      (0, .call (0, .write ⟨[105, 10], false⟩)) :: List.replicate 16 (0, .go) ++
      (1, .call (1, .write ⟨[122, 10], false⟩)) :: List.replicate 22 (1, .go))

end Forward

end Aesd.Proofs
