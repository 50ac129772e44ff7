import CmaPool.Compare.Traffic

/-! The answers of a `ProcPool` are the buffers of the process after exactly the
commands that were forwarded before the call. -/

namespace CmaPool.Compare

open TestDrm Lifting

def Cached (before : List Call) (pool : Python.ProcPool) : Prop :=
  match pool.pagedInBuffers with
  | none => before.getLast? ≠ some .pagedInBuffers
  | some buffers => before.getLast? = some .pagedInBuffers ∧ Shows before buffers pool.overflow

structure Invariant (calls before : List Call) (s : Session) : Prop where
  made : calls = before ++ s.activity.pending ++ s.calls
  replies : List.Forall₂ Exact (requests [] before) s.replies
  cache : Cached before s.pool
  fresh : s.activity.pending ≠ [] → s.pool.pagedInBuffers = none
  notRaised : ∀ exn, s.activity ≠ .raised exn
  link : ∃ read behind data, commandsOf before = read ++ behind ∧ Link s read behind data

section Calls

variable (calls : List Call)

theorem commandsOf_append (calls' : List Call) :
    commandsOf (calls ++ calls') = commandsOf calls ++ commandsOf calls' := List.filterMap_append

theorem requests_append (before calls' : List Call) :
    requests before (calls ++ calls') = requests before calls ++ requests (before ++ calls) calls' := by
  induction calls generalizing before with
  | nil => rw [List.append_nil]; rfl
  | cons call calls ih =>
      cases call with
      | processCommand c =>
          change requests (before ++ [.processCommand c]) (calls ++ calls') = _
          rw [ih, List.append_assoc]
          rfl
      | pagedInBuffers =>
          change before :: requests (before ++ [.pagedInBuffers]) (calls ++ calls') = _
          rw [ih, List.append_assoc]
          rfl

end Calls

section Invariant

variable {calls before : List Call} {s : Session}

theorem linesOf_request : linesOf (before ++ [.pagedInBuffers]) = linesOf before := by
  rw [linesOf, commandsOf_append]
  exact congrArg (List.map forwarded) (List.append_nil _)

theorem Shows.request {buffers : List Python.Buffer} {overflow : Int}
    (h : Shows before buffers overflow) : Shows (before ++ [.pagedInBuffers]) buffers overflow := by
  rwa [Shows, linesOf_request]

theorem replies_request {replies : List Reply} {reply : Reply}
    (h : List.Forall₂ Exact (requests [] before) replies) (hreply : Exact before reply) :
    List.Forall₂ Exact (requests [] (before ++ [.pagedInBuffers])) (replies ++ [reply]) := by
  rw [requests_append]
  exact List.rel_append h (.cons hreply .nil)

theorem invariant_start {data : Data} (hinit : initData = .ok data) :
    Invariant calls [] (Session.start calls data) where
  made := rfl
  replies := .nil
  cache := by
    change ([] : List Call).getLast? ≠ some .pagedInBuffers
    simp
  fresh := fun h => absurd rfl h
  notRaised := by
    intro exn h
    cases h
  link := by
    have hstdout := initData_stdout hinit
    refine ⟨[], [], data, rfl, ?_, ?_, ?_⟩
    · change (initData >>= fun data => pure data) = _
      rw [hinit]
      rfl
    · have hrefl := Twins.refl data
      rw [hstdout] at hrefl
      change Twins [] data.stdout data data
      rw [hstdout]
      exact hrefl
    · change Traffic data [] none [] data.stdout
      rw [hstdout]
      exact .quiet []

theorem Invariant.processCommand (h : Invariant calls before s) {c : Python.Command}
    {rest : List Call} (hcall : s.calls = .processCommand c :: rest) (hidle : s.activity = .idle) :
    Invariant calls (before ++ [.processCommand c]) { s with
      calls := rest
      pool := { s.pool with pagedInBuffers := none }
      buffered := s.buffered ++ forwarded c } where
  made := by
    have hmade := h.made
    rw [hidle, hcall] at hmade
    change calls = before ++ [.processCommand c] ++ s.activity.pending ++ rest
    rw [hmade, hidle]
    simp [Activity.pending]
  replies := by
    rw [requests_append]
    change List.Forall₂ Exact (requests [] before ++ []) s.replies
    rw [List.append_nil]
    exact h.replies
  cache := by
    change (before ++ [Call.processCommand c]).getLast? ≠ some .pagedInBuffers
    simp
  fresh := fun _ => rfl
  notRaised := h.notRaised
  link := by
    obtain ⟨read, behind, data₀, hcommands, hlink⟩ := h.link
    refine ⟨read, behind ++ [c], data₀, ?_, hlink.processCommand hidle c rest _⟩
    rw [commandsOf_append, hcommands, List.append_assoc]
    rfl

theorem Invariant.cached (h : Invariant calls before s) {rest : List Call}
    {buffers : List Python.Buffer} (hcall : s.calls = .pagedInBuffers :: rest)
    (hidle : s.activity = .idle) (hcache : s.pool.pagedInBuffers = some buffers) :
    Invariant calls (before ++ [.pagedInBuffers]) { s with
      calls := rest
      replies := s.replies ++ [⟨[], buffers, s.pool.overflow⟩] } := by
  have hcached := h.cache
  rw [Cached, hcache] at hcached
  obtain ⟨hlast, hshows⟩ := hcached
  refine { h with made := ?_, replies := ?_, cache := ?_, link := ?_ }
  · have hmade := h.made
    rw [hidle, hcall] at hmade
    change calls = before ++ [.pagedInBuffers] ++ s.activity.pending ++ rest
    rw [hmade, hidle]
    simp [Activity.pending]
  · exact replies_request h.replies ⟨hshows, fun _ => rfl, fun hfresh => absurd hlast hfresh⟩
  · change Cached (before ++ [.pagedInBuffers]) s.pool
    rw [Cached, hcache]
    exact ⟨List.getLast?_concat, hshows.request⟩
  · obtain ⟨read, behind, data₀, hcommands, hlink⟩ := h.link
    refine ⟨read, behind, data₀, ?_, { hlink with }⟩
    rw [commandsOf_append, ← hcommands]
    exact List.append_nil _

theorem Invariant.request (h : Invariant calls before s) {rest : List Call}
    (hcall : s.calls = .pagedInBuffers :: rest) (hidle : s.activity = .idle)
    (hcache : s.pool.pagedInBuffers = none) :
    Invariant calls before { s with
      calls := rest
      activity := .flushing
      buffered := s.buffered ++ text "dump\n" } where
  made := by
    have hmade := h.made
    rw [hidle, hcall] at hmade
    rw [hmade]
    simp [Activity.pending]
  replies := h.replies
  cache := h.cache
  fresh := fun _ => hcache
  notRaised := by
    intro exn hraised
    cases hraised
  link := by
    obtain ⟨read, behind, data₀, hcommands, hlink⟩ := h.link
    exact ⟨read, behind, data₀, hcommands, hlink.request hidle rest⟩

theorem Invariant.flushed (h : Invariant calls before s) (hflushing : s.activity = .flushing) :
    Invariant calls before { s with activity := .reading [] } where
  made := by
    have hmade := h.made
    rw [hflushing] at hmade
    exact hmade
  replies := h.replies
  cache := h.cache
  fresh := by
    intro _
    apply h.fresh
    rw [hflushing]
    exact List.cons_ne_nil _ _
  notRaised := by
    intro exn hraised
    cases hraised
  link := by
    obtain ⟨read, behind, data₀, hcommands, hlink⟩ := h.link
    have htraffic := hlink.traffic
    rw [hflushing] at htraffic
    exact ⟨read, behind, data₀, hcommands, { hlink with traffic := htraffic }⟩

theorem Invariant.readLine (h : Invariant calls before s) {parts : List Bytes}
    (hreading : s.activity = .reading parts) {line stdout : Bytes}
    (hline : Python.readLine s.stdout = some (line, stdout))
    (hmore : Python.closes line = false) :
    Invariant calls before { s with activity := .reading (parts ++ [line]), stdout } where
  made := by
    have hmade := h.made
    rw [hreading] at hmade
    exact hmade
  replies := h.replies
  cache := h.cache
  fresh := by
    intro _
    apply h.fresh
    rw [hreading]
    exact List.cons_ne_nil _ _
  notRaised := by
    intro exn hraised
    cases hraised
  link := by
    obtain ⟨read, behind, data₀, hcommands, hlink⟩ := h.link
    obtain ⟨front, first, todo, rfl, hlines, rfl, rfl, hin, hout⟩ := hlink.readLine hreading hline
    have htodo : todo ≠ [] := by
      intro hlast
      rw [(closes_iff hlines).mpr hlast] at hmore
      cases hmore
    refine ⟨read, [], data₀, hcommands, { hlink with traffic := ?_ }⟩
    change Traffic data₀ [] (some (front.map text ++ [text first])) (s.stdin ++ s.buffered)
      (stdout ++ s.data.stdout)
    have hparts : front.map text ++ [text first] = (front ++ [first]).map text := by simp
    rw [hin, hout, hparts]
    apply Traffic.answered _ _ htodo
    rw [hlines, List.append_assoc]
    rfl

/-- What the last line of an answer completes. -/
theorem Invariant.answer (h : Invariant calls before s) {parts : List Bytes}
    (hreading : s.activity = .reading parts) {line stdout : Bytes}
    (hline : Python.readLine s.stdout = some (line, stdout))
    (hlast : Python.closes line = true) :
    ∃ data, run (linesOf before) = .ok data ∧ parts ++ [line] = (dumpLines data).map text ∧
      Link { s with activity := .idle, stdout } (commandsOf before) [] data := by
  obtain ⟨read, behind, data₀, hcommands, hlink⟩ := h.link
  obtain ⟨front, first, todo, rfl, hlines, rfl, rfl, hin, hout⟩ := hlink.readLine hreading hline
  rw [List.append_nil] at hcommands
  have htodo := (closes_iff hlines).mp hlast
  rw [htodo] at hlines hout
  have hparts : front.map text ++ [text first] = (dumpLines data₀).map text := by
    rw [hlines, List.map_append]
    rfl
  refine ⟨data₀, ?_, hparts, ?_⟩
  · rw [linesOf, hcommands]
    exact hlink.reached
  · rw [hcommands]
    refine { hlink with traffic := ?_ }
    change Traffic data₀ [] none (s.stdin ++ s.buffered) (stdout ++ s.data.stdout)
    rw [hin, hout]
    exact .quiet []

theorem oneDump_dumpLines {data : Data} (hrun : run (linesOf before) = .ok data) :
    OneDump before ((dumpLines data).map text).flatten := by
  obtain ⟨front, hsplit, hopen⟩ := dumpLines_last data
  refine ⟨data, (dumpLines data).map text, hrun, ?_, rfl, ?_, ?_, ?_, dumpString data,
    dumpValue data, decode_dumpLines data, dumpString_loads data⟩
  · rw [dumpData_eq, dumpText, List.flatMap_def]
  · intro part hpart
    obtain ⟨l, hl, rfl⟩ := List.mem_map.mp hpart
    exact dumpLines_isLine data hl
  · intro part hpart
    rw [hsplit, List.map_append, List.map_singleton, List.getLast?_concat] at hpart
    obtain rfl := Option.some.inj hpart
    exact (closes_iff hsplit).mpr rfl
  · intro part hpart
    rw [hsplit, List.map_append, List.map_singleton, List.dropLast_concat] at hpart
    obtain ⟨l, hl, rfl⟩ := List.mem_map.mp hpart
    exact decide_eq_false (hopen l hl)

theorem Invariant.answered (h : Invariant calls before s) {parts : List Bytes}
    (hreading : s.activity = .reading parts) {line stdout : Bytes}
    (hline : Python.readLine s.stdout = some (line, stdout))
    (hlast : Python.closes line = true) {overflow : Int} {buffers : List Python.Buffer}
    (hstate : Python.readState (parts ++ [line]) = .ok (overflow, buffers)) :
    Invariant calls (before ++ [.pagedInBuffers]) { s with
      pool := { overflow, pagedInBuffers := some buffers }
      activity := .idle
      replies := s.replies ++ [⟨(parts ++ [line]).flatten, buffers, overflow⟩]
      stdout } := by
  obtain ⟨data, hrun, hparts, hlink⟩ := h.answer hreading hline hlast
  have hcache := h.cache
  have hpending : s.activity.pending = [.pagedInBuffers] := by
    rw [hreading]
    rfl
  rw [Cached, h.fresh (by rw [hpending]; exact List.cons_ne_nil _ _)] at hcache
  have hvalue := hstate
  rw [hparts, readState_dump] at hvalue
  have hshows : Shows before buffers overflow := by
    cases hvalue
    exact ⟨data, hrun, rfl, rfl⟩
  have hdump : OneDump before (parts ++ [line]).flatten := by
    rw [hparts]
    exact oneDump_dumpLines hrun
  constructor
  · have hmade := h.made
    rw [hpending] at hmade
    rw [hmade]
    simp [Activity.pending]
  · exact replies_request h.replies ⟨hshows, fun hcached => absurd hcached hcache, fun _ => hdump⟩
  · exact ⟨List.getLast?_concat, hshows.request⟩
  · exact fun hopen => absurd rfl hopen
  · intro exn hraised
    cases hraised
  · refine ⟨commandsOf before, [], data, ?_, { hlink with }⟩
    rw [commandsOf_append]
    rfl

theorem Invariant.not_raised (h : Invariant calls before s) {parts : List Bytes}
    (hreading : s.activity = .reading parts) {line stdout : Bytes}
    (hline : Python.readLine s.stdout = some (line, stdout))
    (hlast : Python.closes line = true) {exn : Python.Exn} :
    Python.readState (parts ++ [line]) ≠ .error exn := by
  obtain ⟨data, _, hparts, _⟩ := h.answer hreading hline hlast
  rw [hparts, readState_dump]
  exact nofun

theorem Invariant.step (hsend : ∀ c ∈ commandsOf calls, Sendable c) (h : Invariant calls before s)
    {s' : Session} (hstep : s.Step s') : ∃ before', Invariant calls before' s' := by
  cases hstep with
  | processCommand hcall hidle => exact ⟨_, h.processCommand hcall hidle⟩
  | cached hcall hidle hcache => exact ⟨_, h.cached hcall hidle hcache⟩
  | request hcall hidle hcache => exact ⟨_, h.request hcall hidle hcache⟩
  | write count =>
      obtain ⟨read, behind, data₀, hcommands, hlink⟩ := h.link
      exact ⟨before, { h with link := ⟨read, behind, data₀, hcommands, hlink.write count⟩ }⟩
  | flushed hflushing => exact ⟨_, h.flushed hflushing⟩
  | processLine hline hrun =>
      obtain ⟨read, behind, data₀, hcommands, hlink⟩ := h.link
      have hbehind : ∀ c ∈ behind, Sendable c := by
        intro c hc
        apply hsend c
        rw [h.made, List.append_assoc, commandsOf_append, hcommands]
        exact List.mem_append_left _ (List.mem_append_right _ hc)
      obtain ⟨read', behind', data₁, hsplit, hlink'⟩ := hlink.processLine hbehind hline hrun
      exact ⟨before, { h with link := ⟨read', behind', data₁, hcommands.trans hsplit.symm, hlink'⟩ }⟩
  | print count =>
      obtain ⟨read, behind, data₀, hcommands, hlink⟩ := h.link
      exact ⟨before, { h with link := ⟨read, behind, data₀, hcommands, hlink.print count⟩ }⟩
  | readLine hreading hline hmore => exact ⟨_, h.readLine hreading hline hmore⟩
  | answered hreading hline hlast hstate => exact ⟨_, h.answered hreading hline hlast hstate⟩
  | raised hreading hline hlast hstate =>
      exact absurd hstate (h.not_raised hreading hline hlast)

theorem reached_invariant (hsend : ∀ c ∈ commandsOf calls, Sendable c)
    (hreached : Session.Reached calls s) : ∃ before, Invariant calls before s := by
  obtain ⟨data, hinit, hsteps⟩ := hreached
  induction hsteps with
  | refl => exact ⟨[], invariant_start hinit⟩
  | tail _ hstep ih =>
      obtain ⟨before, h⟩ := ih
      exact h.step hsend hstep

/-- The process takes the next line as long as the commands do not abort it. -/
theorem Link.next (hsend : ∀ c ∈ commandsOf calls, Sendable c)
    (hcomplete : ∃ data, run (linesOf calls) = .ok data) {read behind rest : List Python.Command}
    (hcommands : commandsOf calls = read ++ behind ++ rest) {data₀ : Data}
    (h : Link s read behind data₀) {more : Bytes}
    (hin : s.stdin = behind.flatMap forwarded ++ text "dump\n" ++ more) :
    ∃ line stdin data, fgets Data.lineSize s.stdin = some (line, stdin) ∧
      s.data.processLine line = .ok data := by
  rw [hin]
  cases behind with
  | nil =>
      exact ⟨_, more, _, fgets_line dump_isLine dump_short more, processLine_dump s.data⟩
  | cons c behind =>
      have hc := hsend c (by simp [hcommands])
      obtain ⟨complete, hcomplete⟩ := hcomplete
      obtain ⟨command, hmark⟩ := forwarded_marked c
      have hlines : linesOf calls =
          read.map forwarded ++ [forwarded c] ++ (behind ++ rest).map forwarded := by
        rw [linesOf, hcommands]
        simp
      rw [hlines, run_append, run_concat h.reached] at hcomplete
      cases hline : data₀.processLine (forwarded c) with
      | error bug =>
          rw [hline] at hcomplete
          cases hcomplete
      | ok data₁ =>
          have hlifted := h.twins.processLine hmark
          rw [hline] at hlifted
          obtain ⟨data, hdata, _⟩ := hlifted.of_ok
          rw [List.flatMap_cons, List.append_assoc, List.append_assoc]
          exact ⟨_, _, data, fgets_line hc.isLine hc.short _, hdata⟩

theorem Invariant.progress (hsend : ∀ c ∈ commandsOf calls, Sendable c)
    (hcomplete : ∃ data, run (linesOf calls) = .ok data) (h : Invariant calls before s)
    (hopen : s.calls ≠ [] ∨ s.activity ≠ .idle) : ∃ s', s.Step s' := by
  by_cases hbuffered : s.buffered = []
  · cases hactivity : s.activity with
    | idle =>
        have hcalls : s.calls ≠ [] := hopen.resolve_right fun hne => hne hactivity
        obtain ⟨call, rest, hcall⟩ := List.exists_cons_of_ne_nil hcalls
        cases call with
        | processCommand c => exact ⟨_, .processCommand hcall hactivity⟩
        | pagedInBuffers =>
            cases hcache : s.pool.pagedInBuffers with
            | none => exact ⟨_, .request hcall hactivity hcache⟩
            | some buffers => exact ⟨_, .cached hcall hactivity hcache⟩
    | flushing => exact ⟨_, .flushed hactivity hbuffered⟩
    | raised exn => exact absurd hactivity (h.notRaised exn)
    | reading parts =>
        obtain ⟨read, behind, data₀, hcommands, hlink⟩ := h.link
        have htraffic := hlink.traffic
        rw [hactivity, hbuffered, List.append_nil] at htraffic
        rcases htraffic.of_some with ⟨_, hin, _⟩ | ⟨front, todo, _, hlines, htodo, _, _, hout⟩
        · have hmade : commandsOf calls = read ++ behind ++ commandsOf s.calls := by
            rw [h.made, hactivity, commandsOf_append, commandsOf_append, hcommands]
            exact congrArg (· ++ commandsOf s.calls) (List.append_nil _)
          rw [← List.append_nil (_ ++ text "dump\n")] at hin
          obtain ⟨line, stdin, data, hline, hrun⟩ := hlink.next hsend hcomplete hmade hin
          exact ⟨_, .processLine hline hrun⟩
        · by_cases hprinted : s.data.stdout = []
          · obtain ⟨first, todo, rfl⟩ := List.exists_cons_of_ne_nil htodo
            have hfirst : Lines.IsLine 0x0a (text first) :=
              dumpLines_isLine data₀ (by simp [hlines])
            have hread : Python.readLine s.stdout = some (text first, todo.flatMap text) := by
              rw [hprinted, List.append_nil, List.flatMap_cons] at hout
              rw [hout]
              exact Lines.cutLine_line hfirst _
            cases hcloses : Python.closes (text first) with
            | false => exact ⟨_, .readLine hactivity hread hcloses⟩
            | true =>
                cases hstate : Python.readState (parts ++ [text first]) with
                | error exn => exact ⟨_, .raised hactivity hread hcloses hstate⟩
                | ok state => exact ⟨_, .answered hactivity hread hcloses hstate⟩
          · exact ⟨_, .print 1 (by decide) (List.length_pos_of_ne_nil hprinted)⟩
  · exact ⟨_, .write 1 (by decide) (List.length_pos_of_ne_nil hbuffered)⟩

end Invariant

section Termination

/-- The steps that the pending call still takes. -/
def Activity.rank : Activity → Nat
  | .flushing => 2
  | .reading _ => 1
  | _ => 0

/-- What every step makes less of, in this order. -/
def Session.size (s : Session) : Nat × Nat × Nat × Nat × Nat × Nat :=
  (s.calls.length, s.activity.rank, s.buffered.length, s.stdin.length, s.data.stdout.length,
    s.stdout.length)

theorem step_wellFounded : WellFounded fun s' s : Session => s.Step s' := by
  have hsize : WellFounded (invImage Session.size inferInstance).rel :=
    (invImage Session.size inferInstance).wf
  refine Subrelation.wf ?_ hsize
  intro s' s hstep
  change Prod.Lex _ _ s'.size s.size
  cases hstep with
  | processCommand hcall | cached hcall | request hcall =>
      apply Prod.Lex.left
      rw [hcall]
      exact Nat.lt_succ_self _
  | write count hpos hcount =>
      apply Prod.Lex.right
      apply Prod.Lex.right
      apply Prod.Lex.left
      change (s.buffered.drop count).length < s.buffered.length
      rw [List.length_drop]
      omega
  | flushed hflushing =>
      apply Prod.Lex.right
      apply Prod.Lex.left
      rw [hflushing]
      exact Nat.lt_succ_self 1
  | processLine hline =>
      apply Prod.Lex.right
      apply Prod.Lex.right
      apply Prod.Lex.right
      apply Prod.Lex.left
      exact fgets_length (by decide) hline
  | print count hpos hcount =>
      apply Prod.Lex.right
      apply Prod.Lex.right
      apply Prod.Lex.right
      apply Prod.Lex.right
      apply Prod.Lex.left
      change (s.data.stdout.drop count).length < s.data.stdout.length
      rw [List.length_drop]
      omega
  | readLine hreading hline =>
      obtain ⟨hsplit, body, hbody, _⟩ := Lines.cutLine_some hline
      apply Prod.Lex.right
      rw [hreading]
      apply Prod.Lex.right
      apply Prod.Lex.right
      apply Prod.Lex.right
      apply Prod.Lex.right
      change List.length _ < s.stdout.length
      rw [hsplit, hbody]
      simp
      omega
  | answered hreading | raised hreading =>
      apply Prod.Lex.right
      apply Prod.Lex.left
      rw [hreading]
      exact Nat.zero_lt_one

end Termination

/-- The calls of one `ProcPool` in every order of the steps of the two programs. -/
structure Synchronised (calls : List Call) : Prop where
  /-- Every request was answered exactly. -/
  exact : ∀ s, Session.Reached calls s → ∃ before,
    calls = before ++ s.activity.pending ++ s.calls ∧
      List.Forall₂ Exact (requests [] before) s.replies
  /-- No answer is left over between the calls. -/
  drained : ∀ s, Session.Reached calls s → s.activity = .idle → s.stdout ++ s.data.stdout = []
  notRaised : ∀ s, Session.Reached calls s → ∀ exn, s.activity ≠ .raised exn
  progress : ∀ s, Session.Reached calls s → s.calls ≠ [] ∨ s.activity ≠ .idle → ∃ s', s.Step s'
  terminates : WellFounded fun s' s : Session => s.Step s'

theorem snapshots_synchronised {calls : List Call} (hsend : ∀ c ∈ commandsOf calls, Sendable c)
    (hcomplete : ∃ data, run (linesOf calls) = .ok data) : Synchronised calls where
  exact := by
    intro s hreached
    obtain ⟨before, h⟩ := reached_invariant hsend hreached
    exact ⟨before, h.made, h.replies⟩
  drained := by
    intro s hreached hidle
    obtain ⟨before, h⟩ := reached_invariant hsend hreached
    obtain ⟨read, behind, data₀, _, hlink⟩ := h.link
    have htraffic := hlink.traffic
    rw [hidle] at htraffic
    exact htraffic.of_none.2
  notRaised := by
    intro s hreached
    obtain ⟨before, h⟩ := reached_invariant hsend hreached
    exact h.notRaised
  progress := by
    intro s hreached
    obtain ⟨before, h⟩ := reached_invariant hsend hreached
    exact h.progress hsend hcomplete
  terminates := step_wellFounded

/-- The second create evicts the first buffer. -/
theorem snapshots_synchronised_evicting :
    Synchronised [.pagedInBuffers,
      .processCommand ⟨0, "create", 0xe9f400, some ["100000000"]⟩,
      .processCommand ⟨1, "create", 0xe9f401, some ["100000000", "bo"]⟩,
      .pagedInBuffers, .pagedInBuffers,
      .processCommand ⟨2, "add_usecnt", 0xe9f400, none⟩, .pagedInBuffers] := by
  have hcomplete : (run (linesOf [.pagedInBuffers,
      .processCommand ⟨0, "create", 0xe9f400, some ["100000000"]⟩,
      .processCommand ⟨1, "create", 0xe9f401, some ["100000000", "bo"]⟩,
      .pagedInBuffers, .pagedInBuffers,
      .processCommand ⟨2, "add_usecnt", 0xe9f400, none⟩, .pagedInBuffers])).toOption.map
        (fun data => data.mruBuffers.length) = some 1 := by
    decide +kernel
  obtain ⟨data, hrun, _⟩ := exists_run hcomplete
  exact snapshots_synchronised (by decide +kernel) ⟨data, hrun⟩

theorem exists_finished {calls : List Call} (hsend : ∀ c ∈ commandsOf calls, Sendable c)
    (hcomplete : ∃ data, run (linesOf calls) = .ok data) {s : Session}
    (hreached : Session.Reached calls s) :
    ∃ s', Session.Reached calls s' ∧ s'.calls = [] ∧ s'.activity = .idle := by
  induction s using step_wellFounded.induction with
  | _ s ih =>
      obtain ⟨before, h⟩ := reached_invariant hsend hreached
      by_cases hopen : s.calls ≠ [] ∨ s.activity ≠ .idle
      · obtain ⟨s', hstep⟩ := h.progress hsend hcomplete hopen
        obtain ⟨data, hinit, hsteps⟩ := hreached
        exact ih s' hstep ⟨data, hinit, hsteps.tail hstep⟩
      · rw [not_or, not_not, not_not] at hopen
        exact ⟨s, hreached, hopen.1, hopen.2⟩

/-- Every call reads one output of `dump_data`, also one that finds the list of
the call before it. -/
def EachReadsADump (calls : List Call) : Prop :=
  ∀ s, Session.Reached calls s → ∀ reply ∈ s.replies, ∃ before, OneDump before reply.consumed

theorem not_oneDump_nil (before : List Call) : ¬ OneDump before [] := by
  rintro ⟨data, _, _, hstdout, _⟩
  rw [dumpData_eq] at hstdout
  have hempty : dumpText data = [] := List.append_cancel_left hstdout
  have hfirst : "\x7b\n" ∈ dumpLines data := by simp [dumpLines]
  obtain ⟨body, hline, _⟩ := dumpLines_isLine data hfirst
  rw [List.flatMap_eq_nil_iff.mp hempty _ hfirst] at hline
  simp at hline

/-- The second of two calls in a row reads nothing. -/
theorem cachedCall_reads_nothing :
    (∀ c ∈ commandsOf [.pagedInBuffers, .pagedInBuffers], Sendable c) ∧
      (∃ data, run (linesOf [.pagedInBuffers, .pagedInBuffers]) = .ok data) ∧
      ¬ EachReadsADump [.pagedInBuffers, .pagedInBuffers] := by
  have hsend : ∀ c ∈ commandsOf [.pagedInBuffers, .pagedInBuffers], Sendable c := nofun
  obtain ⟨data, hinit, _⟩ := initData_sound
  have hcomplete : ∃ data, run (linesOf [.pagedInBuffers, .pagedInBuffers]) = .ok data := by
    refine ⟨data, ?_⟩
    rw [run, hinit]
    rfl
  refine ⟨hsend, hcomplete, ?_⟩
  intro hreads
  obtain ⟨s, hreached, hcalls, hidle⟩ := exists_finished hsend hcomplete ⟨data, hinit, .refl⟩
  obtain ⟨before, h⟩ := reached_invariant hsend hreached
  have hmade := h.made
  have hpending : Activity.pending .idle = [] := rfl
  rw [hcalls, hidle, hpending, List.append_nil, List.append_nil] at hmade
  have hreplies := h.replies
  rw [← hmade] at hreplies
  have hreply := hreads s hreached
  generalize s.replies = replies at hreplies hreply
  cases hreplies with
  | cons _ hrest =>
      cases hrest with
      | @cons _ reply _ _ hexact _ =>
          have hconsumed : reply.consumed = [] := hexact.cached rfl
          obtain ⟨before, hdump⟩ := hreply reply (by simp)
          rw [hconsumed] at hdump
          exact not_oneDump_nil before hdump

end CmaPool.Compare
