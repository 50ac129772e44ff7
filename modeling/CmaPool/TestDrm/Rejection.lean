import CmaPool.TestDrm.Reading
import CmaPool.TestDrm.Runs

/-! The lines that test-drm-mm turns away.

A handler reports what is wrong with its command before it changes anything, but
for the two of the use count, which go on and store the value that is already
there. -/

namespace CmaPool.TestDrm

open Drm

namespace Data

/-- What a handler without arguments reports of its command, with its own check
of the buffer in `state`. -/
def bufferDiagnosis (data : Data) (c : Command) (state : Ptr → Option Bytes) : Option Bytes :=
  if c.args ≠ [] then some data.unexpectedArgs
  else
    match data.findBuffer c.name with
    | none => some (data.unknownBuffer c.name)
    | some p => state p

/-- What the handler reports of the command itself. -/
def diagnosis (data : Data) (c : Command) : Option Bytes :=
  match c.verb with
  | .destroy => data.bufferDiagnosis c fun _ => none
  | .addUsecnt => data.bufferDiagnosis c fun p =>
      if (data.buf p).inUse then some (data.usecntMessage c.name "add_usecnt" "already in use")
      else none
  | .removeUsecnt => data.bufferDiagnosis c fun p =>
      if !(data.buf p).inUse then some (data.usecntMessage c.name "remove_usecnt" "not in use")
      else none
  | .create =>
      if (data.findBuffer c.name).isSome then some (data.alreadyExists c.name)
      else if (scanSize c.args).isNone then some data.badBufferSize
      else none
  | .use => data.bufferDiagnosis c fun _ => none
  | .madv =>
      if (data.findBuffer c.name).isNone then some (data.unknownBuffer c.name) else none

end Data

section Diagnosis

variable {data : Data} {l : List NodeRef} {c : Command} {p : Ptr} {message : Bytes}

theorem withBuffer_reports {state : Ptr → Option Bytes} {f : Ptr → Except Bug Data}
    (hstate : ∀ p message, state p = some message → f p = .ok (data.eprint message))
    (h : data.bufferDiagnosis c state = some message) :
    data.withBuffer c.name c.args f = .ok (data.eprint message) := by
  rw [Data.bufferDiagnosis] at h
  rw [Data.withBuffer]
  by_cases hargs : c.args ≠ []
  · rw [if_pos hargs] at h ⊢
    cases h
    rfl
  · rw [if_neg hargs] at h ⊢
    cases hname : data.findBuffer c.name with
    | none =>
        rw [hname] at h
        cases h
        rfl
    | some p =>
        rw [hname] at h
        exact hstate p message h

theorem withBuffer_passes {state : Ptr → Option Bytes} {f : Ptr → Except Bug Data}
    (h : data.bufferDiagnosis c state = none) :
    ∃ p, data.findBuffer c.name = some p ∧ state p = none ∧
      data.withBuffer c.name c.args f = f p := by
  rw [Data.bufferDiagnosis] at h
  by_cases hargs : c.args ≠ []
  · rw [if_pos hargs] at h
    cases h
  · rw [if_neg hargs] at h
    cases hname : data.findBuffer c.name with
    | none =>
        rw [hname] at h
        cases h
    | some p =>
        rw [hname] at h
        exact ⟨p, rfl, h, by rw [Data.withBuffer, if_neg hargs, hname]⟩

/-- The value that a use count handler stores after its report is there already. -/
theorem setInUse_again {inUse : Bool} (hused : (data.buf p).inUse = inUse) (message : Bytes) :
    (data.eprint message).setBuf p { (data.eprint message).buf p with inUse } =
      data.eprint message := by
  have hsame : { data.buf p with inUse } = data.buf p := by rw [← hused]
  change { data.eprint message with buf := Function.update data.buf p { data.buf p with inUse } } = _
  rw [hsame, Function.update_eq_self]
  rfl

section Usecnt

variable {told : Ptr → Bool} {report : Bytes} {inUse : Bool}

theorem usecnt_reports (hused : ∀ p, told p = true → (data.buf p).inUse = inUse)
    (h : data.bufferDiagnosis c (fun p => if told p then some report else none) = some message) :
    data.withBuffer c.name c.args (fun p =>
      let data := if told p then data.eprint report else data
      pure (data.setBuf p { data.buf p with inUse })) = .ok (data.eprint message) := by
  refine withBuffer_reports ?_ h
  intro p message hstate
  split at hstate
  · next htold =>
      cases hstate
      simp only [if_pos htold]
      exact congrArg Except.ok (setInUse_again (hused p htold) _)
  · cases hstate

theorem usecnt_passes {data' : Data}
    (hnone : data.bufferDiagnosis c (fun p => if told p then some report else none) = none)
    (hrun : data.withBuffer c.name c.args (fun p =>
      let data := if told p then data.eprint report else data
      pure (data.setBuf p { data.buf p with inUse })) = .ok data') :
    data'.stderr = data.stderr := by
  obtain ⟨p, _, hstate, heq⟩ := withBuffer_passes hnone
  rw [heq] at hrun
  split at hstate
  · cases hstate
  · next hsilent =>
      rw [if_neg hsilent] at hrun
      cases hrun
      rfl

end Usecnt

theorem execute_reports (h : data.diagnosis c = some message) :
    data.execute c = .ok (data.eprint message) := by
  rw [Data.execute]
  rw [Data.diagnosis] at h
  cases hverb : c.verb with
  | destroy =>
      rw [hverb] at h
      refine withBuffer_reports ?_ h
      intro p message hstate
      cases hstate
  | addUsecnt =>
      rw [hverb] at h
      exact usecnt_reports (fun _ hused => hused) h
  | removeUsecnt =>
      rw [hverb] at h
      exact usecnt_reports (fun _ hunused => by simpa using hunused) h
  | create =>
      simp only [hverb] at h
      change data.bufCreate c.name c.args = _
      rw [Data.bufCreate]
      cases hname : data.findBuffer c.name with
      | some p =>
          rw [hname] at h
          cases h
          rfl
      | none =>
          cases hscan : scanSize c.args with
          | none =>
              rw [hname, hscan] at h
              cases h
              rfl
          | some scanned =>
              rw [hname, hscan] at h
              cases h
  | use =>
      rw [hverb] at h
      refine withBuffer_reports ?_ h
      intro p message hstate
      cases hstate
  | madv =>
      simp only [hverb] at h
      change data.bufMadv c.name c.args = _
      rw [Data.bufMadv]
      cases hname : data.findBuffer c.name with
      | none =>
          rw [hname] at h
          cases h
          rfl
      | some p =>
          rw [hname] at h
          cases h

/-- The one message of a handler that has started its work. -/
def RanOut (data data' : Data) : Prop :=
  ∃ size, data'.stderr = data.stderr ++ Data.noInsertionPoint size

theorem pageInBuffer_stderr (h : Consistent data l) (hp : p ∈ data.allBuffers)
    (hq : p ∉ data.mruBuffers) {ret : Bool} {data' : Data}
    (hrun : data.pageInBuffer p = .ok (ret, data')) :
    data'.stderr = data.stderr ∨ RanOut data data' := by
  classical
  by_cases hsize : (data.buf p).size = 0 ∨ (data.buf p).size > poolSize
  · rw [pageInBuffer_badSize h hp hq hsize] at hrun
    cases hrun
  · rw [not_or, not_lt] at hsize
    have hcases := pageInBuffer_cases h hp hq hsize.1 hsize.2 fun _ => Iff.rfl
    rw [hrun] at hcases
    cases hcases with
    | fits hin =>
        obtain ⟨mm, _, rfl, _⟩ := hin
        exact Or.inl rfl
    | evicting _ _ _ hout hin =>
        obtain ⟨_, _, _, rfl, _⟩ := hout
        obtain ⟨_, _, rfl, _⟩ := hin
        exact Or.inl rfl
    | failed _ _ hout =>
        obtain ⟨_, _, _, rfl, _⟩ := hout
        exact Or.inr ⟨_, rfl⟩

theorem PageInCall.stderr {data₀ data' : Data} {ret : Bool} (h : Consistent data l)
    (hcall : PageInCall data c data₀ p) (hrun : data₀.pageInBuffer p = .ok (ret, data')) :
    data'.stderr = data.stderr ∨ RanOut data data' := by
  obtain ⟨hp, habsent⟩ := hcall.listed
  have hcons := hcall.consistent h
  have hprinted := pageInBuffer_stderr hcons hp (hcons.not_mem_mru habsent) hrun
  cases hcall with
  | create => exact hprinted
  | use => exact hprinted

theorem execute_passes (h : Consistent data l) (hnone : data.diagnosis c = none) {data' : Data}
    (hrun : data.execute c = .ok data') : data'.stderr = data.stderr ∨ RanOut data data' := by
  rw [Data.execute] at hrun
  rw [Data.diagnosis] at hnone
  cases hverb : c.verb with
  | destroy =>
      rw [hverb] at hnone hrun
      obtain ⟨p, hname, _, heq⟩ := withBuffer_passes (f := data.freeBuffer) hnone
      obtain ⟨data₁, hout, hfree⟩ := freeBuffer_eq h (findBuffer_some hname).1
      obtain ⟨_, _, _, rfl, _⟩ := hout
      change data.withBuffer c.name c.args data.freeBuffer = _ at hrun
      rw [heq, hfree] at hrun
      cases hrun
      exact Or.inl rfl
  | addUsecnt | removeUsecnt =>
      rw [hverb] at hnone hrun
      exact Or.inl (usecnt_passes hnone hrun)
  | create =>
      simp only [hverb] at hnone
      rw [hverb] at hrun
      change data.bufCreate c.name c.args = _ at hrun
      rw [Data.bufCreate] at hrun
      cases hname : data.findBuffer c.name with
      | some p => simp [hname] at hnone
      | none =>
          cases hscan : scanSize c.args with
          | none => simp [hname, hscan] at hnone
          | some scanned =>
              rw [hname, hscan] at hrun
              obtain ⟨⟨ret, data₁⟩, hin, heq⟩ := bind_ok hrun
              cases heq
              exact (PageInCall.create hverb hname hscan).stderr h hin
  | use =>
      rw [hverb] at hnone hrun
      change data.withBuffer c.name c.args _ = _ at hrun
      obtain ⟨p, hname, _, heq⟩ := withBuffer_passes hnone
      rw [heq] at hrun
      split at hrun
      · obtain ⟨mruBuffers, _, htouched⟩ := bind_ok hrun
        cases htouched
        exact Or.inl rfl
      · next habsent =>
          obtain ⟨⟨ret, data₁⟩, hin, hdone⟩ := bind_ok hrun
          cases hdone
          have hp := (findBuffer_some hname).1
          exact pageInBuffer_stderr h hp (h.not_mem_mru (by simpa using habsent)) hin
  | madv =>
      simp only [hverb] at hnone
      rw [hverb] at hrun
      change data.bufMadv c.name c.args = _ at hrun
      rw [Data.bufMadv] at hrun
      cases hname : data.findBuffer c.name with
      | none => simp [hname] at hnone
      | some p =>
          simp only [hname, Data.setMadv, Data.madvMap] at hrun
          split at hrun
          · cases hrun
            exact Or.inl rfl
          · cases hrun
            exact Or.inl rfl

/-- Every report of a command starts with the number of its line. -/
theorem diagnosis_line (h : data.diagnosis c = some message) : message.head? = some 0x6c := by
  have hline : ∀ rest, (text "line " ++ rest).head? = some 0x6c := by
    intro rest
    rw [text_literal (by decide)]
    rfl
  have hbuffer : ∀ state : Ptr → Option Bytes,
      (∀ p message, state p = some message → message.head? = some 0x6c) →
      data.bufferDiagnosis c state = some message → message.head? = some 0x6c := by
    intro state hstate h
    rw [Data.bufferDiagnosis] at h
    split at h
    · cases h
      rw [Data.unexpectedArgs, List.append_assoc]
      exact hline _
    · split at h
      · cases h
        rw [Data.unknownBuffer, List.append_assoc, List.append_assoc, List.append_assoc]
        exact hline _
      · exact hstate _ _ h
  have husecnt : ∀ name command state,
      (data.usecntMessage name command state).head? = some 0x6c := by
    intro name command state
    simp only [Data.usecntMessage, List.append_assoc]
    exact hline _
  rw [Data.diagnosis] at h
  cases hverb : c.verb with
  | destroy | use =>
      rw [hverb] at h
      refine hbuffer _ ?_ h
      intro p message hstate
      cases hstate
  | addUsecnt | removeUsecnt =>
      rw [hverb] at h
      refine hbuffer _ ?_ h
      intro p message hstate
      split at hstate
      · cases hstate
        exact husecnt _ _ _
      · cases hstate
  | create =>
      simp only [hverb] at h
      split at h
      · cases h
        simp only [Data.alreadyExists, List.append_assoc]
        exact hline _
      · split at h
        · cases h
          simp only [Data.badBufferSize, List.append_assoc]
          exact hline _
        · cases h
  | madv =>
      simp only [hverb] at h
      split at h
      · cases h
        simp only [Data.unknownBuffer, List.append_assoc]
        exact hline _
      · cases h

theorem noInsertionPoint_head (size : Nat) :
    (Data.noInsertionPoint size).head? = some 0x43 := by
  rw [Data.noInsertionPoint, List.append_assoc, text_literal (by decide)]
  rfl

end Diagnosis

/-- No handler runs, or the handler reports something else than that the buffer
found no room. -/
inductive TurnedAway (data : Data) (line : Bytes) : Prop
  | noHandler (hnone : lineCommand line = none)
  | reported {c : Command} {data' : Data} {message : Bytes} (hline : lineCommand line = some c)
      (hrun : data.execute c = .ok data') (hmessage : data'.stderr = data.stderr ++ message)
      (hsome : message ≠ []) (hother : ∀ size, message ≠ Data.noInsertionPoint size)

/-- The line is a request to dump. -/
def IsDump (line : Bytes) : Prop :=
  strstr Data.commandMarker (cString line) = none ∧
    startsWith (skipSpaces (cString line)) (text "dump") = true ∧
    ((skipSpaces (cString line)).drop 4).all isspace = true

section Line

variable {data : Data} {lines : List Bytes} {line : Bytes}

theorem turnedAway_iff (hs : Sound data) :
    TurnedAway data line ↔ lineCommand line = none ∨
      ∃ c message, lineCommand line = some c ∧ data.diagnosis c = some message := by
  obtain ⟨l, hcons⟩ := hs.consistent
  constructor
  · intro haway
    cases haway with
    | noHandler hnone => exact Or.inl hnone
    | @reported c data' message hline hrun hmessage hsome hother =>
        cases hdiagnosis : data.diagnosis c with
        | some report => exact Or.inr ⟨c, report, hline, hdiagnosis⟩
        | none =>
            exfalso
            rcases execute_passes hcons hdiagnosis hrun with hquiet | ⟨size, hsize⟩
            · rw [hmessage] at hquiet
              exact hsome (List.append_right_eq_self.mp hquiet)
            · rw [hmessage] at hsize
              exact hother size (List.append_cancel_left hsize)
  · rintro (hnone | ⟨c, message, hline, hdiagnosis⟩)
    · exact .noHandler hnone
    · have hhead := diagnosis_line hdiagnosis
      refine .reported hline (execute_reports hdiagnosis) rfl ?_ ?_
      · rintro rfl
        cases hhead
      · rintro size rfl
        rw [noInsertionPoint_head] at hhead
        cases hhead

theorem processLine_dumps (hdump : IsDump line) : data.processLine line = .ok data.dumpData := by
  obtain ⟨hmarker, hdump⟩ := hdump
  rw [Data.processLine, hmarker]
  exact if_pos hdump

theorem turnedAway_unchanged (hrun : run lines = .ok data)
    (haway : TurnedAway data line ∨ IsDump line) :
    ∃ stdout stderr, data.processLine line = .ok (data.printed stdout stderr) := by
  rcases haway with haway | hdump
  · rcases processLine_cases data line with ⟨c, hline, heq⟩ | ⟨_, hquiet⟩
    · rcases (turnedAway_iff (run_sound hrun)).mp haway with hnone | ⟨c', message, hline', hreport⟩
      · rw [hline] at hnone
        cases hnone
      · rw [hline] at hline'
        cases hline'
        rw [heq, execute_reports hreport]
        exact ⟨data.stdout, _, rfl⟩
    · exact hquiet
  · exact ⟨_, data.stderr, processLine_dumps hdump⟩

/-- The second `add_usecnt` stores the flag that is set already. -/
theorem turnedAway_unchanged_used :
    ∃ data, run [text "[1] @@@ create 1 4096\n", text "[2] @@@ add_usecnt 1\n"] = .ok data ∧
      ∃ stdout stderr, data.processLine (text "[3] @@@ add_usecnt 1\n") =
        .ok (data.printed stdout stderr) := by
  have hused : (run [text "[1] @@@ create 1 4096\n", text "[2] @@@ add_usecnt 1\n"]).toOption.map
      (fun data => (data.diagnosis ⟨.addUsecnt, 1, []⟩).isSome) = some true := by
    decide +kernel
  have hline : lineCommand (text "[3] @@@ add_usecnt 1\n") = some ⟨.addUsecnt, 1, []⟩ := by
    decide +kernel
  obtain ⟨data, hrun, hreport⟩ := exists_run hused
  obtain ⟨message, hmessage⟩ := Option.isSome_iff_exists.mp hreport
  have haway : TurnedAway data (text "[3] @@@ add_usecnt 1\n") :=
    (turnedAway_iff (run_sound hrun)).mpr (Or.inr ⟨_, message, hline, hmessage⟩)
  exact ⟨data, hrun, turnedAway_unchanged hrun (Or.inl haway)⟩

end Line

end CmaPool.TestDrm
