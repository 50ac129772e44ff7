import CmaPool.Compare.Snapshot
import CmaPool.TestDrm.Rejection
import CmaPool.TestDrm.Stream

/-! A `ProcPool` together with its process, as one pool.

The process takes its lines when the pool is asked for its buffers. Lines that are
too long for `fgets` come as several pieces, and a piece that reads `dump` makes
the process print its buffers without having been asked. -/

namespace CmaPool.Compare

open TestDrm Drm Lifting

/-- How a method of a pool can fail: it raises, the process aborts, or a read waits
for ever. -/
inductive Failure
  | raised (exn : Python.Exn)
  | aborted (bug : Bug)
  | blocked

def raising {α : Type} : Except Python.Exn α → Except Failure α
  | .ok a => .ok a
  | .error exn => .error (.raised exn)

def aborting {α : Type} : Except Bug α → Except Failure α
  | .ok a => .ok a
  | .error bug => .error (.aborted bug)

/-- `stdin` is what the process has not read yet, `data.stdout` what the Python
program has not. -/
structure DrmPool where
  pool : Python.ProcPool
  stdin : Bytes
  data : Data

/-- The lines of `stdout` up to one that starts with a closing brace. -/
def readParts : Nat → Bytes → Except Failure (List Bytes × Bytes)
  | 0, _ => throw .blocked
  | fuel + 1, stdout =>
      match Python.readLine stdout with
      | none => throw .blocked
      | some (line, stdout) =>
          if Python.closes line then
            pure ([line], stdout)
          else do
            let (parts, stdout) ← readParts fuel stdout
            return (line :: parts, stdout)

namespace DrmPool

def new (data : Data) : DrmPool := { pool := Python.ProcPool.new, stdin := [], data }

def processCommand (p : DrmPool) (command : Python.Command) : DrmPool :=
  { p with
    pool := { p.pool with pagedInBuffers := none }
    stdin := p.stdin ++ forwarded command }

/-- `paged_in_buffers`, with the process that answers it. -/
def pagedInBuffers (p : DrmPool) : Except Failure (List Python.Buffer × DrmPool) :=
  match p.pool.pagedInBuffers with
  | some buffers => pure (buffers, p)
  | none => do
      let (lines, stdin) := readStream (p.stdin ++ text "dump\n")
      let data ← aborting (p.data.processLines lines)
      let (parts, stdout) ← readParts data.stdout.length data.stdout
      let (overflow, buffers) ← raising (Python.readState parts)
      return (buffers, {
        pool := { overflow, pagedInBuffers := some buffers }
        stdin
        data := { data with stdout } })

/-- The lists that the calls return, each with the overflow then. -/
def replies : List Call → DrmPool → Except Failure (List (List Python.Buffer × Int))
  | [], _ => pure []
  | .processCommand c :: calls, p => replies calls (p.processCommand c)
  | .pagedInBuffers :: calls, p => do
      let (buffers, p) ← p.pagedInBuffers
      let rest ← replies calls p
      return (buffers, p.pool.overflow) :: rest

end DrmPool

section Answer

variable {data shown : Data} {out : Bytes}

theorem readParts_lines {front todo : List String} (hlines : dumpLines shown = front ++ todo)
    (hne : todo ≠ []) (out : Bytes) {fuel : Nat} (hfuel : todo.length ≤ fuel) :
    readParts fuel (todo.flatMap text ++ out) = .ok (todo.map text, out) := by
  induction todo generalizing front fuel with
  | nil => exact absurd rfl hne
  | cons line todo ih =>
      obtain ⟨fuel, rfl⟩ := Nat.exists_eq_succ_of_ne_zero (Nat.ne_zero_of_lt hfuel)
      have hline : Lines.IsLine 0x0a (text line) := dumpLines_isLine shown (by simp [hlines])
      have hread : Python.readLine (text line ++ (todo.flatMap text ++ out)) =
          some (text line, todo.flatMap text ++ out) := Lines.cutLine_line hline _
      rw [List.flatMap_cons, List.append_assoc, readParts, hread]
      by_cases hlast : todo = []
      · have hcloses := (closes_iff hlines).mpr hlast
        simp only [hcloses, if_true, hlast]
        rfl
      · have hcloses : Python.closes (text line) = false := by
          rw [← Bool.not_eq_true, closes_iff hlines]
          exact hlast
        have hlines' : dumpLines shown = front ++ [line] ++ todo := by simp [hlines]
        have hrest := ih hlines' hlast (Nat.le_of_succ_le_succ hfuel)
        simp only [hcloses, Bool.false_eq_true, if_false, hrest]
        rfl

/-- One output of `dump_data` is read to its end and no further. -/
theorem readParts_dump (shown : Data) (out : Bytes) :
    readParts (dumpText shown ++ out).length (dumpText shown ++ out) =
      .ok ((dumpLines shown).map text, out) := by
  have hpos : ∀ lines : List String, (∀ line ∈ lines, Lines.IsLine 0x0a (text line)) →
      lines.length ≤ (lines.flatMap text).length := by
    intro lines hlines
    induction lines with
    | nil => exact Nat.le_refl 0
    | cons line lines ih =>
        obtain ⟨body, hbody, _⟩ := hlines line List.mem_cons_self
        have hrest := ih fun line' hline' => hlines line' (List.mem_cons_of_mem _ hline')
        rw [List.flatMap_cons, List.length_append, hbody, List.length_append, List.length_cons,
          List.length_singleton]
        omega
  have hlength := hpos (dumpLines shown) fun line hline => dumpLines_isLine shown hline
  have hall : dumpLines shown = [] ++ dumpLines shown := rfl
  apply readParts_lines hall (by simp [dumpLines])
  rw [List.length_append]
  exact Nat.le_add_right_of_le hlength

/-- A pool without a list answers with the oldest output that it has not read. -/
theorem pagedInBuffers_answer {p : DrmPool} (hcache : p.pool.pagedInBuffers = none)
    (hlines : p.data.processLines (readStream (p.stdin ++ text "dump\n")).1 = .ok data)
    (hout : data.stdout = dumpText shown ++ out) :
    p.pagedInBuffers = .ok (shown.mruBuffers.map (shownBuffer shown), {
      pool := {
        overflow := shown.overflow
        pagedInBuffers := some (shown.mruBuffers.map (shownBuffer shown)) }
      stdin := (readStream (p.stdin ++ text "dump\n")).2
      data := { data with stdout := out } }) := by
  have haborting : aborting (p.data.processLines (readStream (p.stdin ++ text "dump\n")).1) =
      .ok data := by rw [hlines]; rfl
  have hparts : readParts data.stdout.length data.stdout = .ok ((dumpLines shown).map text, out) := by
    rw [hout]
    exact readParts_dump shown out
  have hstate : raising (Python.readState ((dumpLines shown).map text)) =
      .ok ((shown.overflow : Int), shown.mruBuffers.map (shownBuffer shown)) := by
    rw [readState_dump]
    rfl
  rw [DrmPool.pagedInBuffers, hcache]
  dsimp only
  rw [bind_of_ok haborting, bind_of_ok hparts, bind_of_ok hstate]
  rfl

end Answer

section Lines

variable {data data' : Data} {out out' : Bytes}

/-- Two runs that take the same lines print the same, and nothing when they are quiet. -/
def PrintsAlike (out out' : Bytes) (quiet : Prop) (data data' : Data) : Prop :=
  ∃ dumps : List Data, (quiet → dumps = []) ∧
    Twins (out ++ dumps.flatMap dumpText) (out' ++ dumps.flatMap dumpText) data data'

theorem twins_dumpData (h : Twins out out' data data') :
    Twins (out ++ dumpText data) (out' ++ dumpText data) data.dumpData data'.dumpData := by
  rw [dumpData_eq, dumpData_eq, dumpText, dumpText, twins_dumpLines h, h.stdout, h.stdout']
  exact { h with stdout := rfl, stdout' := rfl }

theorem printsAlike_nothing (quiet : Prop) (h : Twins out out' data data') :
    PrintsAlike out out' quiet data data' := by
  refine ⟨[], fun _ => rfl, ?_⟩
  simpa using h

theorem twins_line (h : Twins out out' data data') (line : Bytes) :
    Lifted (PrintsAlike out out' (¬ IsDump line)) (data.processLine line)
      (data'.processLine line) := by
  by_cases hdump : IsDump line
  · rw [processLine_dumps hdump, processLine_dumps hdump]
    apply Lifted.ok
    refine ⟨[data], fun hquiet => absurd hdump hquiet, ?_⟩
    simpa using twins_dumpData h
  · cases hmark : lineText line with
    | some command => exact (h.processLine hmark).mono fun _ _ => printsAlike_nothing _
    | none =>
        have hnone : strstr Data.commandMarker (cString line) = none :=
          Option.map_eq_none_iff.mp hmark
        have hskipped := fun hstarts => hdump ⟨hnone, hstarts⟩
        rw [Data.processLine, Data.processLine, hnone]
        dsimp only
        rw [if_neg hskipped, if_neg hskipped]
        exact .pure (printsAlike_nothing _ h)

theorem twins_lines (h : Twins out out' data data') (lines : List Bytes) :
    Lifted (PrintsAlike out out' (∀ line ∈ lines, ¬ IsDump line))
      (data.processLines lines) (data'.processLines lines) := by
  induction lines generalizing data data' out out' with
  | nil => exact .ok (printsAlike_nothing _ h)
  | cons line lines ih =>
      rw [processLines_cons, processLines_cons]
      apply (twins_line h line).bind
      rintro data₁ data₁' ⟨dumps, hquiet, htwins⟩
      apply (ih (twins_nextLine htwins)).mono
      rintro data₂ data₂' ⟨dumps', hquiet', htwins'⟩
      refine ⟨dumps ++ dumps', ?_, ?_⟩
      · intro hall
        rw [hquiet (hall line List.mem_cons_self),
          hquiet' fun line' hmem => hall line' (List.mem_cons_of_mem _ hmem)]
        rfl
      · rw [List.flatMap_append, ← List.append_assoc, ← List.append_assoc]
        exact htwins'

theorem twins_shown (h : Twins out out' data data') :
    data'.mruBuffers.map (shownBuffer data') = data.mruBuffers.map (shownBuffer data) := by
  have hshown : shownBuffer data' = shownBuffer data := by
    funext p
    rw [shownBuffer, shownBuffer, h.buf, Data.startOf, Data.startOf, h.mm]
  rw [hshown, h.mruBuffers]

end Lines

section History

/-- What the process makes of the commands, when nothing asks for its buffers. -/
def processRun (history : List Python.Command) : Except Bug Data :=
  run (readStream (history.flatMap forwarded)).1

variable {history first second : List Python.Command} {data : Data}

theorem complete_forwarded (c : Python.Command) : Complete (forwarded c) := by
  right
  rw [forwarded, Python.Command.format, text_append _ "\n", text_newline, List.getLast?_concat]

theorem complete_history (history : List Python.Command) :
    Complete (history.flatMap forwarded) := by
  induction history with
  | nil => exact Or.inl rfl
  | cons c history ih =>
      rw [List.flatMap_cons]
      exact (complete_forwarded c).append ih

theorem processRun_append (first second : List Python.Command) :
    processRun (first ++ second) = (do
      let data ← processRun first
      data.processLines (readStream (second.flatMap forwarded)).1) := by
  calc
    _ = run ((readStream (first.flatMap forwarded)).1 ++
        (readStream (second.flatMap forwarded)).1) := by
      rw [processRun, List.flatMap_append, readStream_append (complete_history first)]
    _ = _ := run_append _ _

/-- Lines that fit are the lines of the process. -/
theorem readStream_history (hsend : ∀ c ∈ history, Sendable c) :
    (readStream (history.flatMap forwarded)).1 = history.map forwarded := by
  rw [List.flatMap_def]
  apply (readStream_lines _).2
  intro line hline
  obtain ⟨c, hc, rfl⟩ := List.mem_map.mp hline
  exact ⟨(hsend c hc).isLine, (hsend c hc).short⟩

theorem processRun_sendable (hsend : ∀ c ∈ history, Sendable c) :
    processRun history = run (history.map forwarded) := by
  rw [processRun, readStream_history hsend]

/-- Nothing that is sent for the commands asks for the buffers. -/
def Quiet (history : List Python.Command) : Prop :=
  ∀ line ∈ (readStream (history.flatMap forwarded)).1, ¬ IsDump line

theorem Quiet.of_append (h : Quiet (first ++ second)) : Quiet first ∧ Quiet second := by
  rw [Quiet, List.flatMap_append, readStream_append (complete_history first)] at h
  exact ⟨fun line hline => h line (List.mem_append_left _ hline),
    fun line hline => h line (List.mem_append_right _ hline)⟩

/-- A command whose line fits into the buffer of `process_file` is not taken for a
request. -/
theorem quiet_of_sendable (hsend : ∀ c ∈ history, Sendable c) : Quiet history := by
  rw [Quiet, readStream_history hsend]
  rintro line hline ⟨hnone, _⟩
  obtain ⟨c, _, rfl⟩ := List.mem_map.mp hline
  obtain ⟨command, hmark⟩ := forwarded_marked c
  rw [lineText, hnone] at hmark
  cases hmark

end History

/-- A list of buffers that can be drawn. It is that of the process after the
commands, when these are quiet. -/
structure Answers (history : List Python.Command) (buffers : List Python.Buffer) (overflow : Int) :
    Prop where
  offsets : ∀ buf ∈ buffers, buf.offset.isSome = true
  shows : Quiet history → ∃ data, processRun history = .ok data ∧
    buffers = data.mruBuffers.map (shownBuffer data) ∧ overflow = data.overflow

/-- The pool after the commands. Its process has read a part of them, and `strays`
was printed and has not been read. -/
structure Follows (history : List Python.Command) (p : DrmPool) : Prop where
  process : ∃ read behind data strays, history = read ++ behind ∧
    p.stdin = behind.flatMap forwarded ∧ processRun read = .ok data ∧
    Twins data.stdout (strays.flatMap dumpText) data p.data ∧
    (Quiet history → strays = [])
  cached : ∀ buffers, p.pool.pagedInBuffers = some buffers →
    Answers history buffers p.pool.overflow

section Pool

variable {history : List Python.Command} {p : DrmPool} {data : Data}

theorem follows_new (hinit : initData = .ok data) : Follows [] (DrmPool.new data) where
  process := by
    have hstdout := initData_stdout hinit
    refine ⟨[], [], data, [], rfl, rfl, ?_, ?_, fun _ => rfl⟩
    · change (initData >>= fun data => pure data) = _
      rw [hinit]
      rfl
    · have hrefl := Twins.refl data
      rw [hstdout] at hrefl ⊢
      exact hrefl
  cached := nofun

theorem Follows.processCommand (h : Follows history p) (c : Python.Command) :
    Follows (history ++ [c]) (p.processCommand c) where
  process := by
    obtain ⟨read, behind, data, strays, rfl, hstdin, hrun, htwins, hstrays⟩ := h.process
    refine ⟨read, behind ++ [c], data, strays, List.append_assoc _ _ _, ?_, hrun, htwins,
      fun hquiet => hstrays hquiet.of_append.1⟩
    change p.stdin ++ forwarded c = _
    rw [hstdin, List.flatMap_append, List.flatMap_singleton]
  cached := nofun

/-- What the process prints up to its answer to a request: what it prints unasked,
and its buffers. -/
theorem Follows.request (h : Follows history p) (hrun : processRun history = .ok data) :
    ∃ data' dumps, p.data.processLines (readStream (p.stdin ++ text "dump\n")).1 = .ok data' ∧
      (readStream (p.stdin ++ text "dump\n")).2 = [] ∧
      Twins data.stdout ((dumps ++ [data']).flatMap dumpText) data data' ∧
      (Quiet history → dumps = []) := by
  obtain ⟨read, behind, data₀, strays, rfl, hstdin, hread, htwins, hstrays⟩ := h.process
  rw [processRun_append, bind_of_ok hread] at hrun
  have hlifted := twins_lines htwins (readStream (behind.flatMap forwarded)).1
  rw [hrun] at hlifted
  obtain ⟨data₁, hdata₁, dumps, hquiet₁, htwins₁⟩ := hlifted.of_ok
  have hdump : readStream (text "dump\n") = ([text "dump\n"], []) := by
    have hfirst := fgets_line dump_isLine dump_short []
    rw [List.append_nil] at hfirst
    exact readStream_cons hfirst
  have hlines : readStream (p.stdin ++ text "dump\n") =
      ((readStream (behind.flatMap forwarded)).1 ++ [text "dump\n"], []) := by
    rw [hstdin, readStream_append (complete_history behind), hdump]
  have hlast : data₁.processLines [text "dump\n"] = .ok data₁.dumpData.nextLine := by
    rw [processLines_cons, processLine_dump]
    rfl
  refine ⟨data₁.dumpData.nextLine, strays ++ dumps, ?_, by rw [hlines], ?_, ?_⟩
  · calc
      _ = data₁.processLines [text "dump\n"] := by
        rw [hlines, processLines_append, bind_of_ok hdata₁]
      _ = .ok data₁.dumpData.nextLine := hlast
  · have hstdout : data₁.dumpData.nextLine.stdout =
        (strays ++ dumps ++ [data₁.dumpData.nextLine]).flatMap dumpText := by
      rw [dumpData_eq, List.flatMap_append, List.flatMap_append, ← htwins₁.stdout',
        List.flatMap_singleton]
      rfl
    rw [← hstdout, dumpData_eq]
    exact { htwins₁ with stdout := rfl, stdout' := rfl }
  · intro hquiet
    rw [hstrays hquiet, hquiet₁ hquiet.of_append.2]
    rfl

theorem Follows.pagedInBuffers (h : Follows history p) (hrun : processRun history = .ok data) :
    ∃ buffers p', p.pagedInBuffers = .ok (buffers, p') ∧ Follows history p' ∧
      Answers history buffers p'.pool.overflow := by
  cases hcache : p.pool.pagedInBuffers with
  | some buffers =>
      refine ⟨buffers, p, ?_, h, h.cached buffers hcache⟩
      rw [DrmPool.pagedInBuffers, hcache]
      rfl
  | none =>
      obtain ⟨data', dumps, hlines, hrest, htwins, hnone⟩ := h.request hrun
      obtain ⟨shown, strays, hdumps⟩ :=
        List.exists_cons_of_ne_nil (List.append_ne_nil_of_right_ne_nil dumps (List.cons_ne_nil data' []))
      rw [hdumps] at htwins
      have hout : data'.stdout = dumpText shown ++ strays.flatMap dumpText :=
        htwins.stdout'.trans List.flatMap_cons
      have hanswer := pagedInBuffers_answer hcache hlines hout
      have hanswers : Answers history (shown.mruBuffers.map (shownBuffer shown)) shown.overflow := by
        constructor
        · intro buf hbuf
          obtain ⟨p, _, rfl⟩ := List.mem_map.mp hbuf
          rfl
        · intro hquiet
          rw [hnone hquiet, List.nil_append] at hdumps
          cases hdumps
          refine ⟨data, hrun, twins_shown htwins, ?_⟩
          rw [htwins.overflow]
      refine ⟨_, _, hanswer, ⟨?_, ?_⟩, hanswers⟩
      · refine ⟨history, [], data, strays, (List.append_nil _).symm, hrest, hrun,
          { htwins with stdout' := rfl }, ?_⟩
        intro hquiet
        rw [hnone hquiet, List.nil_append] at hdumps
        cases hdumps
        rfl
      · intro buffers hbuffers
        cases hbuffers
        exact hanswers

/-- A request is answered by the first output, be it one that nobody asked for. -/
theorem pagedInBuffers_stray {front back : List Bytes} {shown data' : Data}
    (hcache : p.pool.pagedInBuffers = none) (htwins : Twins data.stdout [] data p.data)
    (hlines : (readStream (p.stdin ++ text "dump\n")).1 = front ++ text "dump\n" :: back)
    (hquiet : ∀ line ∈ front, ¬ IsDump line)
    (hfront : data.processLines front = .ok shown)
    (hback : shown.dumpData.nextLine.processLines back = .ok data') :
    ∃ drmMm, p.pagedInBuffers = .ok (shown.mruBuffers.map (shownBuffer shown), drmMm) := by
  have hlifted := twins_lines htwins front
  rw [hfront] at hlifted
  obtain ⟨seen, hseen, dumps, hnone, htwins'⟩ := hlifted.of_ok
  rw [hnone hquiet, List.flatMap_nil, List.append_nil] at htwins'
  have hlifted' := twins_lines (twins_nextLine (twins_dumpData htwins')) back
  rw [hback] at hlifted'
  obtain ⟨last, hlast, dumps', _, htwins''⟩ := hlifted'.of_ok
  have hall : p.data.processLines (readStream (p.stdin ++ text "dump\n")).1 = .ok last := by
    calc
      _ = seen.processLines (text "dump\n" :: back) := by
        rw [hlines, processLines_append, bind_of_ok hseen]
      _ = seen.dumpData.nextLine.processLines back := by
        rw [processLines_cons, processLine_dump]
        rfl
      _ = .ok last := hlast
  have hout : last.stdout = dumpText shown ++ dumps'.flatMap dumpText := htwins''.stdout'
  exact ⟨_, pagedInBuffers_answer hcache hall hout⟩

end Pool

section Session

variable {calls before front : List Call} {p : DrmPool}

theorem Shows.unique {buffers buffers' : List Python.Buffer} {overflow overflow' : Int}
    (h : Shows before buffers overflow) (h' : Shows before buffers' overflow') :
    (buffers, overflow) = (buffers', overflow') := by
  obtain ⟨data, hrun, rfl, rfl⟩ := h
  obtain ⟨data', hrun', rfl, rfl⟩ := h'
  rw [hrun] at hrun'
  cases hrun'
  rfl

theorem replies_shows (hsend : ∀ c ∈ commandsOf (front ++ calls), Sendable c)
    (hcomplete : ∃ data, run (linesOf (front ++ calls)) = .ok data)
    (h : Follows (commandsOf front) p) :
    ∃ answers, p.replies calls = .ok answers ∧
      List.Forall₂ (fun before answer => Shows before answer.1 answer.2) (requests front calls)
        answers := by
  induction calls generalizing front p with
  | nil => exact ⟨[], rfl, .nil⟩
  | cons call calls ih =>
      rw [List.append_cons] at hsend hcomplete
      cases call with
      | processCommand c =>
          apply ih hsend hcomplete
          rw [commandsOf_append]
          exact h.processCommand c
      | pagedInBuffers =>
          have hfront : ∀ c ∈ commandsOf front, Sendable c := by
            intro c hc
            apply hsend c
            rw [commandsOf_append, commandsOf_append]
            exact List.mem_append_left _ (List.mem_append_left _ hc)
          have hsame : commandsOf (front ++ [.pagedInBuffers]) = commandsOf front := by
            rw [commandsOf_append]
            exact List.append_nil _
          obtain ⟨data, hdata⟩ : ∃ data, processRun (commandsOf front) = .ok data := by
            obtain ⟨data, hrun⟩ := hcomplete
            rw [linesOf, commandsOf_append, hsame, List.map_append, run_append] at hrun
            obtain ⟨data₁, hfirst, _⟩ := bind_ok hrun
            exact ⟨data₁, (processRun_sendable hfront).trans hfirst⟩
          obtain ⟨buffers, p', hreply, hfollows, hanswers⟩ := h.pagedInBuffers hdata
          obtain ⟨answers, hrest, hshows⟩ := ih hsend hcomplete (hsame ▸ hfollows)
          refine ⟨(buffers, p'.pool.overflow) :: answers, ?_, .cons ?_ hshows⟩
          · rw [DrmPool.replies, bind_of_ok hreply]
            dsimp only
            rw [bind_of_ok hrest]
            rfl
          · obtain ⟨data', hrun, hbuffers, hoverflow⟩ := hanswers.shows (quiet_of_sendable hfront)
            rw [processRun_sendable hfront] at hrun
            exact ⟨data', hrun, hbuffers, hoverflow⟩

theorem answers_unique {asked : List (List Call)} {answers : List (List Python.Buffer × Int)}
    {replies : List Reply}
    (hshows : List.Forall₂ (fun before answer => Shows before answer.1 answer.2) asked answers)
    (hexact : List.Forall₂ Exact asked replies) :
    answers = replies.map fun reply => (reply.buffers, reply.overflow) := by
  induction hshows generalizing replies with
  | nil =>
      cases hexact
      rfl
  | cons hanswer _ ih =>
      cases hexact with
      | cons hreply hrest =>
          rw [List.map_cons, ih hrest]
          exact congrArg (· :: _) (hanswer.unique hreply.shows)

/-- Whatever the order of the steps of the two programs, the calls return what they
return here. -/
theorem reached_replies (hsend : ∀ c ∈ commandsOf calls, Sendable c)
    (hcomplete : ∃ data, run (linesOf calls) = .ok data) {s : Session}
    (hreached : Session.Reached calls s) :
    ∃ before data, calls = before ++ s.activity.pending ++ s.calls ∧ initData = .ok data ∧
      (DrmPool.new data).replies before =
        .ok (s.replies.map fun reply => (reply.buffers, reply.overflow)) := by
  obtain ⟨before, hinvariant⟩ := reached_invariant hsend hreached
  obtain ⟨data, hinit, _⟩ := hreached
  refine ⟨before, data, hinvariant.made, hinit, ?_⟩
  have hsend' : ∀ c ∈ commandsOf ([] ++ before), Sendable c := by
    intro c hc
    apply hsend c
    rw [hinvariant.made, List.append_assoc, commandsOf_append]
    exact List.mem_append_left _ hc
  have hcomplete' : ∃ data, run (linesOf ([] ++ before)) = .ok data := by
    obtain ⟨after, hrun⟩ := hcomplete
    rw [hinvariant.made, List.append_assoc, linesOf, commandsOf_append, List.map_append,
      run_append] at hrun
    obtain ⟨data₁, hfirst, _⟩ := bind_ok hrun
    exact ⟨data₁, hfirst⟩
  obtain ⟨answers, hanswers, hshows⟩ := replies_shows hsend' hcomplete' (follows_new hinit)
  rw [hanswers, answers_unique hshows hinvariant.replies]

end Session

end CmaPool.Compare
