import Aesd.Base.Words
import Aesd.Exec.SystemCalls
import Mathlib.Data.Finset.Card

namespace Aesd.Exec
open Base CString

/-- The program was started and did not exit with 1. -/
def Answer.done (a : Answer) : Bool :=
  a.forked && a.outcome.any (fun status => decide (status ≠ .exited EXIT_FAILURE))

/-- Fewer than a hundred bytes, and a name in them. -/
def Usable (path : List UInt8) : Prop := path.length < 100 ∧ ∃ b ∈ path, b ≠ slash

instance : DecidablePred Usable := fun path =>
  inferInstanceAs (Decidable (path.length < 100 ∧ ∃ b ∈ path, b ≠ slash))

namespace Invocation

/-- Whether the call is to redirect the output of its program. -/
def redirects : Invocation → Bool
  | redirect _ _ => true
  | _ => false

/-- Whether the call gets as far as the name of its program. -/
def reaches (a : Answer) : Invocation → Bool
  | system => false
  | exec _ => true
  | redirect _ _ => a.created

/-- The path of the program can be copied and has a name in it. -/
def Runnable : Invocation → Prop
  | system => True
  | exec command => ∃ path ∈ command.head?, Usable path.val
  | redirect _ command => ∃ path ∈ command.head?, Usable path.val

instance : DecidablePred Runnable
  | system => isTrue trivial
  | exec command => inferInstanceAs (Decidable (∃ path ∈ command.head?, Usable path.val))
  | redirect _ command => inferInstanceAs (Decidable (∃ path ∈ command.head?, Usable path.val))

/-- What the call is to return. -/
def report (a : Answer) : Invocation → Bool
  | system => a.forked
  | exec _ => a.done
  | redirect _ _ => a.created && a.duplicated && a.done

/-- The program of a command, under the last part of its path. -/
def program (command : List CStr) (stdout : List UInt8) : Option Launch :=
  command.head?.map (fun path =>
    ⟨path, lastWord slash path :: command.tail.map Subtype.val, some stdout⟩)

/-- The program that the call is to start, if the system lets it. -/
def launches (stdout : List UInt8) (a : Answer) : Invocation → List Launch
  | system => []
  | exec command =>
    if a.forked && a.outcome.isSome then (program command stdout).toList else []
  | redirect outputfile command =>
    if a.created && a.duplicated && a.forked && a.outcome.isSome then
      (program command outputfile).toList
    else []

/-- Whether the system lets the call create its file. -/
def creates (c : Invocation × Answer) : Bool := c.1.redirects && c.2.created

end Invocation

end Aesd.Exec

namespace Aesd.Proofs
open Base CString Exec

section ProgramName
variable {path rest : List UInt8}

theorem slash_ne_zero : slash ≠ 0 := by decide

/-- The loop ends with the last word of what is left, or with the name it had. -/
theorem nameLoop_lastWord {fuel off : Nat} {bs pad : Bytes} (name : Option (List UInt8))
    (h0 : 0 ∉ rest) (hoff : bs.drop off = rest.map some ++ some 0 :: pad)
    (hfuel : rest.length < fuel) :
    (strtokAt slash bs off >>= fun r => nameLoop fuel r.2.2 r.1 r.2.1 name) =
      .ok (if lastWord slash rest = [] then name else some (lastWord slash rest)) := by
  induction fuel generalizing rest bs off name with
  | zero => omega
  | succ fuel ih =>
    obtain hblank | ⟨skipped, word, behind, hworded⟩ := worded_or_blank slash rest
    · obtain ⟨bs', off', htok⟩ := strtokAt_blank slash_ne_zero hblank hoff
      rw [htok, if_pos (lastWord_eq_nil_iff.mpr hblank)]
      rfl
    · obtain ⟨bs', off', htok, hoff'⟩ := hworded.strtokAt slash_ne_zero h0 hoff
      have hbehind0 : 0 ∉ behind.tail := by
        intro hm
        exact h0 (by simp [hworded.parts, List.mem_of_mem_tail hm])
      have hshorter : behind.tail.length < fuel := by
        have hlen := congrArg List.length hworded.parts
        have hpos := List.length_pos_iff.mpr hworded.nonempty
        simp only [List.length_append, List.length_tail] at hlen ⊢
        omega
      have hnext := ih (some word) hbehind0 hoff' hshorter
      rw [htok]
      refine Eq.trans hnext ?_
      rw [hworded.lastWord]
      split
      · rw [if_neg hworded.nonempty]
      · rfl

theorem programName_eq (h0 : 0 ∉ path) : programName path =
    if path.length < 100 then
      if lastWord slash path = [] then .error .uninitialised else .ok (lastWord slash path)
    else .error .outOfBounds := by
  split
  · rename_i hshort
    have hroom : path.length < (List.replicate 100 (none : Option UInt8)).length := by
      rwa [List.length_replicate]
    obtain ⟨bs, hcopy, htext⟩ := strcpy_fits h0 hroom
    obtain ⟨_, pad, hbs⟩ := (text_ok_iff bs path).mp htext
    have hoff : bs.drop 0 = path.map some ++ some 0 :: pad := hbs
    have hloop := nameLoop_lastWord none h0 hoff path.length.lt_succ_self
    cases htok : strtokAt slash bs 0 with
    | error e =>
      rw [htok] at hloop
      cases hloop
    | ok r =>
      obtain ⟨part, off, inputStr⟩ := r
      rw [htok] at hloop
      simp only [bind, Except.bind] at hloop
      simp only [programName, hcopy, htok, bind, Except.bind, hloop]
      by_cases hword : lastWord slash path = []
      · simp only [hword, ↓reduceIte]
        rfl
      · simp only [hword, ↓reduceIte]
        rfl
  · rename_i hlong
    rw [programName, strcpy_overruns (by rwa [List.length_replicate])]
    rfl

theorem programName_ok (h0 : 0 ∉ path) (h : Usable path) :
    programName path = .ok (lastWord slash path) := by
  have hword : lastWord slash path ≠ [] := by
    intro hnil
    obtain ⟨b, hb, hne⟩ := h.2
    exact hne (lastWord_eq_nil_iff.mp hnil b hb)
  rw [programName_eq h0, if_pos h.1, if_neg hword]

theorem usable_of_programName {name : List UInt8} (h0 : 0 ∉ path)
    (h : programName path = .ok name) : Usable path := by
  rw [programName_eq h0] at h
  split at h
  · rename_i hshort
    split at h
    · cases h
    · rename_i hword
      refine ⟨hshort, ?_⟩
      simpa using fun hall => hword (lastWord_eq_nil_iff.mpr hall)
  · cases h

end ProgramName

section Descriptors
variable {limit fd n m : Nat} {a : Answer} {s s₁ s₂ : Caller} {outputfile : List UInt8}

/-- The descriptors below the limit that are open. -/
def openFds (limit : Nat) (s : Caller) : Finset Nat :=
  {fd ∈ Finset.range limit | (s.files fd).isSome}

/-- Every descriptor still stands for its file, and `n` more are open. -/
structure Opened (limit n : Nat) (s s' : Caller) : Prop where
  kept : ∀ fd file, s.files fd = some file → s'.files fd = some file
  count : (openFds limit s').card = (openFds limit s).card + n

theorem opened_of_files_eq (h : s₁.files = s.files) : Opened limit 0 s s₁ := by
  refine ⟨fun _ _ hfile => h ▸ hfile, ?_⟩
  simp only [openFds, h, Nat.add_zero]

theorem Opened.trans (h : Opened limit n s s₁) (h' : Opened limit m s₁ s₂) :
    Opened limit (n + m) s s₂ := by
  refine ⟨fun fd file hfile => h'.kept fd file (h.kept fd file hfile), ?_⟩
  rw [h'.count, h.count, Nat.add_assoc]

theorem card_openFds_le (limit : Nat) (s : Caller) : (openFds limit s).card ≤ limit :=
  (Finset.card_filter_le _ _).trans_eq (Finset.card_range limit)

theorem freeFd_some (h : s.freeFd limit = some fd) : fd < limit ∧ s.files fd = none := by
  refine ⟨List.mem_range.mp (List.mem_of_find?_eq_some h), ?_⟩
  simpa using List.find?_some h

theorem freeFd_isSome (h : (openFds limit s).card < limit) : (s.freeFd limit).isSome := by
  by_contra hnone
  have hall : openFds limit s = Finset.range limit := by
    apply Finset.filter_true_of_mem
    intro fd hfd
    simp only [Caller.freeFd, List.find?_isSome, not_exists, not_and] at hnone
    simpa [Option.ne_none_iff_isSome] using hnone fd (List.mem_range.mpr (Finset.mem_range.mp hfd))
  rw [hall, Finset.card_range] at h
  exact absurd h (Nat.lt_irrefl limit)

theorem creat_some (h : s.creat limit a outputfile = some (fd, s₁)) :
    a.created = true ∧ fd < limit ∧ s.files fd = none ∧
      s₁ = { s with files := Function.update s.files fd (some outputfile) } := by
  rw [Caller.creat] at h
  split at h
  · obtain ⟨fd', hfree, heq⟩ := Option.map_eq_some_iff.mp h
    cases heq
    obtain ⟨hlt, hnone⟩ := freeFd_some hfree
    exact ⟨‹_›, hlt, hnone, rfl⟩
  · cases h

theorem creat_opened (h : s.creat limit a outputfile = some (fd, s₁)) : Opened limit 1 s s₁ := by
  obtain ⟨_, hlt, hnone, rfl⟩ := creat_some h
  refine ⟨?_, ?_⟩
  · intro fd' file hfile
    have hne : fd' ≠ fd := by
      intro he
      rw [he, hnone] at hfile
      cases hfile
    exact (Function.update_of_ne hne _ _).trans hfile
  · have hinsert : openFds limit
        { s with files := Function.update s.files fd (some outputfile) } =
        insert fd (openFds limit s) := by
      ext fd'
      by_cases he : fd' = fd
      · subst he
        simp [openFds, hlt]
      · simp [openFds, he]
    rw [hinsert, Finset.card_insert_of_notMem (by simp [openFds, hnone])]

theorem creat_isSome (outputfile : List UInt8) (hcreated : a.created = true)
    (hroom : (openFds limit s).card < limit) :
    ∃ fd s₁, s.creat limit a outputfile = some (fd, s₁) := by
  obtain ⟨fd, hfree⟩ := Option.isSome_iff_exists.mp (freeFd_isSome hroom)
  exact ⟨fd, _, by rw [Caller.creat, if_pos hcreated, hfree, Option.map_some]⟩

/-- The file becomes the standard output of the child, unless it has taken the place of a
standard output that was closed. -/
theorem redirected_of_creat {out : List UInt8} (hstdout : s.files STDOUT_FILENO = some out)
    (h : s.creat limit a outputfile = some (fd, s₁)) :
    redirected s₁.files fd = some outputfile := by
  obtain ⟨_, _, hnone, rfl⟩ := creat_some h
  have hne : STDOUT_FILENO ≠ fd := by
    intro he
    rw [he, hnone] at hstdout
    cases hstdout
  rw [redirected, Function.update_of_ne hne, Function.update_self]
  exact Function.update_self ..

end Descriptors

section Calls
variable {limit : Nat} {a : Answer} {s s' : Caller} {ret : Bool} {r : Bool × Caller}
  {launch : Launch} {outputfile : List UInt8} {command : List CStr}

@[simp] theorem forkAndWait_files : (forkAndWait a launch s).2.files = s.files := by
  rw [forkAndWait]
  split
  · simp only [Caller.wait]
    split
    · rfl
    · rfl
  · rfl

/-- With no other child to wait for, a call hears of its own. -/
theorem forkAndWait_alone (hcalm : a.interrupted = false) (hnone : s.children = []) :
    forkAndWait a launch s = (a.forked && succeeded (some a.status),
      { s with launched := s.launched ++
          if a.forked && a.outcome.isSome then [launch] else [] }) := by
  rw [forkAndWait]
  split
  · rename_i hforked
    have hwait : (s.spawn a launch).wait a = (some a.status,
        { s with launched := s.launched ++ if a.outcome.isSome then [launch] else [] }) := by
      rw [Caller.wait, if_neg (by simp [hcalm])]
      simp only [Caller.spawn, hnone, List.nil_append, List.length_singleton, Nat.mod_one]
      split
      · simp
      · simp
    rw [hwait, hforked, Bool.true_and, Bool.true_and]
  · rename_i hforked
    simp [hforked]

theorem succeeded_status (a : Answer) : (a.forked && succeeded (some a.status)) = a.done := by
  cases hout : a.outcome with
  | none => simp [Answer.status, Answer.done, hout, succeeded]
  | some status =>
    cases status with
    | exited code => simp [Answer.status, Answer.done, hout, succeeded]
    | signaled signal => simp [Answer.status, Answer.done, hout, succeeded]

theorem done_afterDup2 (a : Answer) : a.afterDup2.done = (a.duplicated && a.done) := by
  cases hdup : a.duplicated with
  | true => simp [Answer.afterDup2, hdup]
  | false => simp [Answer.afterDup2, hdup, Answer.done]

theorem started_afterDup2 (a : Answer) : (a.afterDup2.forked && a.afterDup2.outcome.isSome) =
    (a.duplicated && a.forked && a.outcome.isSome) := by
  cases hdup : a.duplicated with
  | true => simp [Answer.afterDup2, hdup]
  | false => simp [Answer.afterDup2, hdup]

theorem interrupted_afterDup2 (a : Answer) : a.afterDup2.interrupted = a.interrupted := by
  unfold Answer.afterDup2
  split <;> rfl

/-- The arguments are put together exactly if the path is usable. -/
theorem arguments_ok_iff (command : List CStr) :
    (∃ r, arguments command = .ok r) ↔ ∃ path ∈ command.head?, Usable path.val := by
  cases command with
  | nil =>
    constructor
    · intro h
      obtain ⟨r, hr⟩ := h
      cases hr
    · intro h
      obtain ⟨path, hpath, _⟩ := h
      cases hpath
  | cons path rest =>
    constructor
    · intro h
      obtain ⟨r, hr⟩ := h
      refine ⟨path, rfl, ?_⟩
      cases hname : programName path with
      | error e =>
        rw [arguments, hname] at hr
        cases hr
      | ok name => exact usable_of_programName path.property hname
    · intro h
      obtain ⟨path', hpath, husable⟩ := h
      cases hpath
      rw [arguments, programName_ok path.property husable]
      exact ⟨_, rfl⟩

theorem arguments_ok {path : CStr} (hpath : path ∈ command.head?) (h : Usable path.val) :
    arguments command = .ok (path, lastWord slash path :: command.tail.map Subtype.val) := by
  cases command with
  | nil => cases hpath
  | cons path' rest =>
    cases hpath
    rw [arguments, programName_ok path.property h]
    rfl

theorem program_eq {path : CStr} (hpath : path ∈ command.head?) (out : List UInt8) :
    Invocation.program command out =
      some ⟨path, lastWord slash path :: command.tail.map Subtype.val, some out⟩ := by
  rw [Invocation.program, Option.mem_def.mp hpath]
  rfl

end Calls

section Invocation
variable {limit : Nat} {call : Invocation} {a : Answer} {s s₁ : Caller} {out : List UInt8}

theorem countP_creates {outputfile : List UInt8} {command : List CStr}
    (hcreated : a.created = true) :
    [(Invocation.redirect outputfile command, a)].countP Invocation.creates = 1 := by
  simp [Invocation.creates, Invocation.redirects, hcreated]

/-- A call leaves the file that it has created open, whatever becomes of the program. -/
theorem run_opens {ret : Bool} (h : call.run limit a s = .ok (ret, s₁)) :
    ∃ n, Opened limit n s s₁ ∧ n ≤ [(call, a)].countP Invocation.creates ∧
      (call.redirects = true → ret = true → n = 1) := by
  cases call with
  | system =>
    obtain ⟨rfl, rfl⟩ := Prod.mk.inj (Except.ok.inj h)
    exact ⟨0, opened_of_files_eq rfl, Nat.zero_le _, nofun⟩
  | exec command =>
    simp only [Invocation.run, doExec, bind, Except.bind] at h
    split at h
    · cases h
    · have hfiles := congrArg (fun r => r.2.files) (Except.ok.inj h)
      refine ⟨0, opened_of_files_eq ?_, Nat.zero_le _, nofun⟩
      rw [← hfiles]
      exact forkAndWait_files
  | redirect outputfile command =>
    simp only [Invocation.run, doExecRedirect, bind, Except.bind] at h
    split at h
    · obtain ⟨rfl, rfl⟩ := Prod.mk.inj (Except.ok.inj h)
      exact ⟨0, opened_of_files_eq rfl, Nat.zero_le _, fun _ => nofun⟩
    · rename_i fd s₂ hcreat
      split at h
      · cases h
      · have hfiles := congrArg (fun r => r.2.files) (Except.ok.inj h)
        refine ⟨1, ?_, ?_, fun _ _ => rfl⟩
        · apply (creat_opened hcreat).trans (m := 0)
          apply opened_of_files_eq
          rw [← hfiles]
          exact forkAndWait_files
        · rw [countP_creates (creat_some hcreat).1]

/-- With room for its file, a call returns exactly if its program has a path that it can
use or it does not get that far. -/
theorem run_ok_iff
    (hroom : (openFds limit s).card + [(call, a)].countP Invocation.creates ≤ limit) :
    (∃ r, call.run limit a s = .ok r) ↔ (call.reaches a = true → call.Runnable) := by
  cases call with
  | system => exact ⟨fun _ => nofun, fun _ => ⟨_, rfl⟩⟩
  | exec command =>
    have hargs := arguments_ok_iff command
    simp only [Invocation.run, doExec, bind, Except.bind, Invocation.reaches, forall_const,
      Invocation.Runnable]
    rw [← hargs]
    cases arguments command with
    | error e => simp
    | ok r => exact iff_of_true ⟨_, rfl⟩ ⟨_, rfl⟩
  | redirect outputfile command =>
    have hargs := arguments_ok_iff command
    cases hcreated : a.created with
    | false =>
      refine iff_of_true ⟨(false, s), ?_⟩ (by simp [Invocation.reaches, hcreated])
      simp [Invocation.run, doExecRedirect, Caller.creat, hcreated]
    | true =>
      rw [countP_creates hcreated] at hroom
      obtain ⟨fd, s₂, hcreat⟩ := creat_isSome outputfile hcreated hroom
      simp only [Invocation.run, doExecRedirect, hcreat, bind, Except.bind, Invocation.reaches,
        hcreated, forall_const, Invocation.Runnable]
      rw [← hargs]
      cases arguments command with
      | error e => simp
      | ok r => exact iff_of_true ⟨_, rfl⟩ ⟨_, rfl⟩

/-- What a call does that has no other child to wait for. -/
theorem run_reports (hrunnable : call.reaches a = true → call.Runnable)
    (hcalm : a.interrupted = false) (hstdout : s.files STDOUT_FILENO = some out)
    (hnone : s.children = [])
    (hroom : (openFds limit s).card + [(call, a)].countP Invocation.creates ≤ limit) :
    ∃ s₁, call.run limit a s = .ok (call.report a, s₁) ∧ s₁.children = [] ∧
      s₁.launched = s.launched ++ call.launches out a := by
  cases call with
  | system => exact ⟨s, rfl, hnone, (List.append_nil _).symm⟩
  | exec command =>
    obtain ⟨path, hpath, husable⟩ := hrunnable rfl
    refine ⟨{ s with launched := s.launched ++ (Invocation.exec command).launches out a },
      ?_, hnone, rfl⟩
    simp only [Invocation.run, doExec, arguments_ok hpath husable, bind, Except.bind, hstdout,
      forkAndWait_alone hcalm hnone, succeeded_status, Invocation.launches, program_eq hpath,
      Option.toList_some]
    rfl
  | redirect outputfile command =>
    cases hcreated : a.created with
    | false =>
      refine ⟨s, ?_, hnone, ?_⟩
      · simp [Invocation.run, doExecRedirect, Caller.creat, Invocation.report, hcreated]
      · simp [Invocation.launches, hcreated]
    | true =>
      obtain ⟨path, hpath, husable⟩ := hrunnable hcreated
      rw [countP_creates hcreated] at hroom
      obtain ⟨fd, s₂, hcreat⟩ := creat_isSome outputfile hcreated hroom
      have hredirected := redirected_of_creat hstdout hcreat
      obtain ⟨_, _, _, hs₂⟩ := creat_some hcreat
      refine ⟨{ s₂ with launched := s.launched ++
          (Invocation.redirect outputfile command).launches out a }, ?_, ?_, rfl⟩
      · have hcalm' : a.afterDup2.interrupted = false :=
          (interrupted_afterDup2 a).trans hcalm
        have hnone₂ : s₂.children = [] := by
          rw [hs₂]
          exact hnone
        have hlaunched : s₂.launched = s.launched := by
          rw [hs₂]
        simp only [Invocation.run, doExecRedirect, hcreat, arguments_ok hpath husable, bind,
          Except.bind, forkAndWait_alone hcalm' hnone₂, succeeded_status, done_afterDup2,
          started_afterDup2, hredirected, hlaunched, Invocation.report, Invocation.launches,
          program_eq hpath, Option.toList_some, hcreated, Bool.true_and]
        rfl
      · rw [hs₂]
        exact hnone

end Invocation

section Runs
variable {limit : Nat} {s s' : Caller} {call : Invocation} {a : Answer}
  {calls : List (Invocation × Answer)}

theorem runAll_cons_ok {r : List Bool × Caller} :
    runAll limit ((call, a) :: calls) s = .ok r ↔ ∃ ret s₁ rets s',
      call.run limit a s = .ok (ret, s₁) ∧ runAll limit calls s₁ = .ok (rets, s') ∧
        r = (ret :: rets, s') := by
  constructor
  · intro h
    cases hrun : call.run limit a s with
    | error e =>
      rw [runAll, hrun] at h
      cases h
    | ok r₁ =>
      cases hrest : runAll limit calls r₁.2 with
      | error e =>
        simp only [runAll, hrun, bind, Except.bind, hrest] at h
        cases h
      | ok r₂ =>
        simp only [runAll, hrun, bind, Except.bind, hrest] at h
        exact ⟨r₁.1, r₁.2, r₂.1, r₂.2, rfl, hrest, (Except.ok.inj h).symm⟩
  · intro h
    obtain ⟨ret, s₁, rets, s', hrun, hrest, rfl⟩ := h
    simp only [runAll, hrun, bind, Except.bind, hrest]
    rfl

theorem countP_first (c : Invocation × Answer) : (c :: calls).countP Invocation.creates =
    [c].countP Invocation.creates + calls.countP Invocation.creates := by
  rw [← List.countP_append, List.singleton_append]

theorem room_first
    (hroom : (openFds limit s).card + ((call, a) :: calls).countP Invocation.creates ≤ limit) :
    (openFds limit s).card + [(call, a)].countP Invocation.creates ≤ limit := by
  rw [countP_first] at hroom
  omega

theorem room_after {ret : Bool} (hrun : call.run limit a s = .ok (ret, s'))
    (hroom : (openFds limit s).card +
      ((call, a) :: calls).countP Invocation.creates ≤ limit) :
    (openFds limit s').card + calls.countP Invocation.creates ≤ limit := by
  obtain ⟨n, hopened, hn, _⟩ := run_opens hrun
  rw [countP_first] at hroom
  have hcount := hopened.count
  omega

/-- "/bin/sh" -/
def binSh : CStr := ⟨[47, 98, 105, 110, 47, 115, 104], by decide⟩

/-- A process with its three standard descriptors open. -/
def terminal : Caller := ⟨fun fd => if fd < 3 then some [116] else none, [], []⟩

/-- The program is started and ends with the status. -/
def ending (status : Status) : Answer := ⟨true, true, true, some status, false, 0⟩

/-- One program ends well, one with 1, one is killed, and one has its output in a file. -/
def errands : List (Invocation × Answer) :=
  [(.exec [binSh, ⟨[97], by decide⟩], ending (.exited 0)), (.exec [binSh], ending (.exited 1)),
    (.exec [binSh], ending (.signaled 9)), (.redirect [102] [binSh], ending (.exited 2))]

/-- The calls that were to redirect their output and returned true. -/
def redirections (calls : List (Invocation × Answer)) (rets : List Bool) : Nat :=
  ((calls.map Prod.fst).zip rets).countP (fun c => c.1.redirects && c.2)

theorem runAll_opens {rets : List Bool} (h : runAll limit calls s = .ok (rets, s')) :
    ∃ n, Opened limit n s s' ∧ redirections calls rets ≤ n := by
  induction calls generalizing s rets with
  | nil =>
    cases h
    exact ⟨0, opened_of_files_eq rfl, Nat.le_refl 0⟩
  | cons c calls ih =>
    obtain ⟨call, a⟩ := c
    obtain ⟨ret, s₁, rets', s₂, hrun, hrest, heq⟩ := runAll_cons_ok.mp h
    cases heq
    obtain ⟨n, hopened, _, hfile⟩ := run_opens hrun
    obtain ⟨m, hopened', hothers⟩ := ih hrest
    refine ⟨n + m, hopened.trans hopened', ?_⟩
    rw [redirections] at hothers ⊢
    rw [List.map_cons, List.zip_cons_cons, List.countP_cons]
    split
    · rename_i hboth
      rw [Bool.and_eq_true] at hboth
      have hone := hfile hboth.1 hboth.2
      omega
    · omega

/-- No file is closed again: whatever the system answers, each redirected call that returned
true has taken a descriptor for good, and there are only so many. -/
theorem redirects_use_up_descriptors {rets : List Bool}
    (h : runAll limit calls s = .ok (rets, s')) :
    (openFds limit s).card + redirections calls rets ≤ limit ∧
      ∀ fd file, s.files fd = some file → s'.files fd = some file := by
  obtain ⟨n, hopened, hle⟩ := runAll_opens h
  have hcount := hopened.count
  have hlimit := card_openFds_le limit s'
  exact ⟨by omega, hopened.kept⟩

/-- With two descriptors left, the third file cannot be created. -/
theorem third_redirect_fails : ∃ s',
    runAll 5 (List.replicate 3 (.redirect [102] [binSh], ending (.exited 0))) terminal =
        .ok ([true, true, false], s') ∧
      (openFds 5 terminal).card + 2 ≤ 5 ∧ s'.files STDOUT_FILENO = some [116] :=
  have hrun := rfl
  have hused := redirects_use_up_descriptors hrun
  ⟨_, hrun, hused.1, hused.2 STDOUT_FILENO [116] rfl⟩

end Runs

end Aesd.Proofs
