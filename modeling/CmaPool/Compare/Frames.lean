import CmaPool.Compare.Recording

/-! The frames of the video are in step with the log. -/

namespace CmaPool.Compare

open TestDrm Drm Lifting Sampling
open Python (Surface Video clock logCommands)

def times (history : List Python.Command) : List Int := history.map Python.Command.timestamp

/-- Frame `k` shows the pools after the commands in front of the first that is later
than its timestamp. -/
structure InStep (fit : List Python.Command → Prop) (lines : List String) (video : Video) :
    Prop where
  first : ∀ c rest, logCommands lines = c :: rest → c.timestamp = 1000000
  frames : Sampled clock (fun n => FrameShows fit ((logCommands lines).take n))
    (times (logCommands lines)) video.out
  /-- When a command is applied, as many frames have been written as it takes to
  reach the timestamps up to its own. -/
  before : ∀ history c rest, logCommands lines = history ++ c :: rest → ∃ s s',
    Main.after history = .ok s ∧ s.catchUp c.timestamp = .ok s' ∧
      IsLeast (reaching clock (times (history ++ [c]))) s'.video.nFrames
  last : ∃ n, IsLeast (reaching clock (times (logCommands lines))) n ∧ video.out.length = n + 30

/-- The frames in front of a command. -/
structure Recorded (commands history : List Python.Command) (video : Video) : Prop where
  frames : Sampled clock (fun n => FrameShows Quiet (commands.take n)) (times history)
    video.out
  due : IsLeast (reaching clock (times history)) video.out.length

structure Main.Keeps (commands history : List Python.Command) (s : Main) : Prop where
  pools : s.pools.After history
  recorded : Recorded commands history s.video

section Steps

variable {commands history rest : List Python.Command} {c : Python.Command} {s : Main}

theorem times_concat : times (history ++ [c]) = times history ++ [c.timestamp] := List.map_append

theorem take_times (hsplit : commands = history ++ rest) :
    commands.take (times history).length = history := by
  rw [hsplit, times, List.length_map, List.take_left]

theorem recorded_wait {video video' : Video} (h : Recorded commands history video)
    (hframes : Sampled clock (fun n => FrameShows Quiet (commands.take n)) (times history)
      video'.out)
    (hwait : IsLeast {n | video.out.length ≤ n ∧ c.timestamp ≤ clock n} video'.out.length) :
    Recorded commands (history ++ [c]) video' := by
  have hdue := reaching_concat Python.clock_mono h.due hwait
  rw [← times_concat] at hdue
  refine ⟨?_, hdue⟩
  rw [times_concat] at hdue ⊢
  exact hframes.event hdue

theorem Main.Keeps.catchUp (h : s.Keeps commands history) (hrun : Processed history)
    (hsplit : commands = history ++ c :: rest) :
    ∃ s', s.catchUp c.timestamp = .ok s' ∧ s'.pools.After history ∧
      Recorded commands (history ++ [c]) s'.video := by
  rw [Main.catchUp]
  split
  · next hlate =>
      obtain ⟨surface, pools', hdraw, hafter, hshows⟩ := h.pools.draw hrun
      obtain ⟨count, hout, hwait⟩ := Python.drawUntil_least surface hlate
      refine ⟨{ pools := pools', video := s.video.drawUntil surface c.timestamp }, ?_, hafter, ?_⟩
      · rw [bind_of_ok hdraw]
        rfl
      · apply recorded_wait h.recorded
        · change Sampled clock _ _ (s.video.drawUntil surface c.timestamp).out
          rw [hout]
          apply h.recorded.frames.hold Python.clock_mono h.recorded.due.1
          rwa [take_times hsplit]
        · change IsLeast _ (s.video.drawUntil surface c.timestamp).out.length
          rwa [hout, List.length_append, List.length_replicate]
  · next hreached =>
      rw [Video.timestamp, s.video.counted] at hreached
      exact ⟨s, rfl, h.pools, recorded_wait h.recorded h.recorded.frames
        ⟨⟨le_rfl, Int.not_lt.mp hreached⟩, fun n hn => hn.1⟩⟩

theorem Main.Keeps.processCommand (h : s.Keeps commands history)
    (hrun : Processed (history ++ [c])) (hsplit : commands = history ++ c :: rest) :
    ∃ s', s.processCommand c = .ok s' ∧ s'.Keeps commands (history ++ [c]) := by
  obtain ⟨s₁, hcatch, hafter, hrecorded⟩ := h.catchUp hrun.front hsplit
  obtain ⟨pools', hpools, hafter'⟩ := hafter.processCommand hrun
  refine ⟨{ s₁ with pools := pools' }, ?_, hafter', hrecorded⟩
  rw [Main.processCommand, bind_of_ok hcatch, bind_of_ok hpools]
  rfl

theorem catchUp_reached {timestamp : Int} (h : timestamp ≤ s.video.timestamp) :
    s.catchUp timestamp = .ok s := by
  rw [Main.catchUp, if_neg (Int.not_lt.mpr h)]
  rfl

/-- The process gets a command when the frames in front of it have been drawn. -/
theorem processCommand_drmMm {s' : Main} (h : s.processCommand c = .ok s') :
    ∃ s₁, s.catchUp c.timestamp = .ok s₁ ∧
      s'.pools.drmMm = s₁.pools.drmMm.processCommand c := by
  obtain ⟨s₁, hcatch, h⟩ := bind_ok h
  obtain ⟨pools, hpools, h⟩ := bind_ok h
  obtain ⟨noCompaction, _, hpools⟩ := bind_ok hpools
  obtain ⟨withCompaction, _, hpools⟩ := bind_ok hpools
  cases hpools
  cases h
  exact ⟨s₁, hcatch, rfl⟩

theorem start_keeps (commands : List Python.Command) :
    ∃ s, Main.start = .ok s ∧ s.Keeps commands [] := by
  obtain ⟨data, hinit, _⟩ := initData_sound
  have hstart : aborting initData = .ok data := by
    rw [hinit]
    rfl
  refine ⟨{ pools := Pools.new data, video := Video.new }, ?_,
    ⟨rfl, rfl, follows_new hinit⟩, sampled_nil, reaching_nil⟩
  rw [Main.start, bind_of_ok hstart]
  rfl

/-- The run up to any command keeps the frames in step. -/
theorem after_keeps (hrun : Processed commands) (hsplit : commands = history ++ rest) :
    ∃ s, Main.after history = .ok s ∧ s.Keeps commands history := by
  induction history using List.reverseRecOn generalizing rest with
  | nil =>
      obtain ⟨s, hstart, hkeeps⟩ := start_keeps commands
      refine ⟨s, ?_, hkeeps⟩
      rw [Main.after, bind_of_ok hstart]
      rfl
  | append_singleton history c ih =>
      have hsplit' : commands = history ++ c :: rest := by
        rw [hsplit, List.append_assoc]
        rfl
      obtain ⟨s, hafter, hkeeps⟩ := ih hsplit'
      rw [hsplit] at hrun
      obtain ⟨s', hcommand, hkeeps'⟩ := hkeeps.processCommand hrun.front hsplit'
      refine ⟨s', ?_, hkeeps'⟩
      rw [after_concat, bind_of_ok hafter, hcommand]

theorem finish_draw {surface : Surface} {pools : Pools} (hdraw : s.pools.draw = .ok (surface, pools)) :
    ∃ video, s.finish = .ok video ∧ video.out = s.video.out ++ List.replicate 30 surface := by
  refine ⟨Video.duplicateFrame^[Video.frameRate - 1] (s.video.drawFrame surface), ?_,
    Python.drawFrames_out s.video (Video.frameRate - 1) surface⟩
  rw [Main.finish, bind_of_ok hdraw]
  rfl

end Steps

section Log

variable {lines : List String}

/-- Where no pool fails, the video is made, and it is in step with the log. -/
theorem main_inStep (hrun : Processed (logCommands lines)) :
    ∃ video, main lines = .ok video ∧ InStep Quiet lines video := by
  obtain ⟨s, hafter, hkeeps⟩ :=
    after_keeps hrun (List.append_nil (logCommands lines)).symm
  obtain ⟨surface, _, hdraw, _, hshows⟩ := hkeeps.pools.draw hrun
  obtain ⟨video, hfinish, hout⟩ := finish_draw hdraw
  refine ⟨video, ?_, fun _ _ => Python.logCommands_first, ?_, ?_, ?_⟩
  · calc
      _ = s.finish := by rw [main_eq, bind_of_ok hafter]
      _ = .ok video := hfinish
  · rw [hout]
    apply hkeeps.recorded.frames.hold Python.clock_mono hkeeps.recorded.due.1
    rwa [take_times (List.append_nil _).symm]
  · intro history c rest hsplit
    obtain ⟨s₁, hafter₁, hkeeps₁⟩ := after_keeps hrun hsplit
    have hfront : Processed history := by
      rw [hsplit] at hrun
      exact hrun.front
    obtain ⟨s₂, hcatch, _, hrecorded⟩ := hkeeps₁.catchUp hfront hsplit
    refine ⟨s₁, s₂, hafter₁, hcatch, ?_⟩
    rw [s₂.video.counted]
    exact hrecorded.due
  · refine ⟨_, hkeeps.recorded.due, ?_⟩
    rw [hout, List.length_append, List.length_replicate]

/-- Where the commands are `fit`, the frames show test-drm-mm as well. -/
theorem InStep.of_fit {fit fit' : List Python.Command → Prop} {video : Video}
    (h : InStep fit lines video)
    (hfit : ∀ n, fit' ((logCommands lines).take n) → fit ((logCommands lines).take n)) :
    InStep fit' lines video where
  first := h.first
  frames := by
    intro n surface hsurface
    obtain ⟨noCompaction, withCompaction, drmMm, hthree, hshown, hshown', hdrm⟩ :=
      h.frames n surface hsurface
    exact ⟨noCompaction, withCompaction, drmMm, hthree, hshown, hshown',
      fun hfit' => hdrm (hfit _ hfit')⟩
  before := h.before
  last := h.last

def outOfOrderLog : List String :=
  ["[5.000000] @@@ create 00000001 4096 bo\n", "[3.500000] @@@ use 00000001\n",
    "[5.100000] @@@ create 00000002 8192\n"]

/-- All pools are shown in all frames. -/
theorem main_inStep_outOfOrder : Processed (logCommands outOfOrderLog) ∧
    ∃ video, main outOfOrderLog = .ok video ∧ InStep (fun _ => True) outOfOrderLog video := by
  have hsend : ∀ c ∈ logCommands outOfOrderLog, Sendable c := by decide +kernel
  have hlength : (run ((logCommands outOfOrderLog).map forwarded)).toOption.map
      (fun data => data.mruBuffers.length) = some 2 := by decide +kernel
  obtain ⟨data, hdata, _⟩ := exists_run hlength
  have hrun : Processed (logCommands outOfOrderLog) := processed_of_returns (by decide +kernel)
    (by decide +kernel) ⟨data, (processRun_sendable hsend).trans hdata⟩
  obtain ⟨video, hvideo, hstep⟩ := main_inStep hrun
  refine ⟨hrun, video, hvideo, hstep.of_fit ?_⟩
  intro n _
  exact quiet_of_sendable fun c hc => hsend c (List.mem_of_mem_take hc)

end Log

section Stale

/-- The match of a create at the start of a log. -/
def matchCreate (address : String) (args : List Char) : Python.LineMatch where
  seconds := ['0']
  micros := List.replicate 6 '0'
  cmd := "create".toList
  address := address.toList
  args := some args

/-- `fgets` cuts the line that is sent for this in front of its last word. -/
def paddedMatch : Python.LineMatch :=
  matchCreate "00000001" ("4096 ".toList ++ List.replicate 988 'x' ++ "dump".toList)

def shortMatch : Python.LineMatch := matchCreate "00000002" "4096".toList

def paddedCreate : Python.Command :=
  ⟨1000000, "create", 1, some ["4096", String.ofList (List.replicate 988 'x') ++ "dump"]⟩

def shortCreate : Python.Command := ⟨1000000, "create", 2, some ["4096"]⟩

def staleLog : List String :=
  ["[0.000000] @@@ create 00000001 4096 " ++ String.ofList (List.replicate 988 'x') ++ "dump\n",
    "[0.000000] @@@ create 00000002 4096\n"]

theorem matchLine_padded :
    Python.matchLine ("[0.000000] @@@ create 00000001 4096 " ++
      String.ofList (List.replicate 988 'x') ++ "dump\n") = some paddedMatch := by
  have hpadded : paddedMatch.WellFormed := by
    refine ⟨⟨by decide, List.all_eq_true.mp (by decide)⟩, ⟨by decide, List.all_eq_true.mp (by decide)⟩,
      ⟨by decide, List.all_eq_true.mp (by decide)⟩,
      ⟨by decide, by decide, List.all_eq_true.mp (by decide)⟩, ?_⟩
    rintro args ⟨⟩
    refine ⟨?_, by decide +kernel⟩
    rintro c ⟨⟩
    decide
  apply Python.matchLine_line hpadded 0
  rw [String.toList_append, String.toList_append, String.toList_ofList, Python.LineMatch.line,
    Python.LineMatch.tail, paddedMatch, matchCreate]
  dsimp only
  generalize List.replicate 988 'x' = padding
  simp

theorem logCommands_stale : logCommands staleLog = [paddedCreate, shortCreate] := by
  have hshort : Python.matchLine "[0.000000] @@@ create 00000002 4096\n" = some shortMatch := by
    decide +kernel
  have hfirst : paddedMatch.command (paddedMatch.timestamp - 1000000) = paddedCreate := by
    rw [Python.LineMatch.command, paddedCreate, Python.Command.mk.injEq]
    exact ⟨by decide, by decide, by decide, by decide +kernel⟩
  have hsecond : shortMatch.command (paddedMatch.timestamp - 1000000) = shortCreate := by
    rw [Python.LineMatch.command, shortCreate, Python.Command.mk.injEq]
    exact ⟨by decide, by decide, by decide, by decide⟩
  rw [logCommands, staleLog, Python.readCommands, matchLine_padded, Python.readCommands, hshort,
    Python.readCommands]
  dsimp only [Option.getD_none]
  rw [hfirst]
  exact congrArg (fun c => [paddedCreate, c]) hsecond

/-- What `fgets` returns first of the line for `paddedCreate`. -/
def firstPiece : Bytes :=
  text "[1000000] @@@ create 00000001 4096 " ++ List.replicate 988 0x78

theorem forwarded_padded : forwarded paddedCreate = firstPiece ++ text "dump\n" := by
  have hformat : paddedCreate.format = "[1000000] @@@ create 00000001 4096 " ++
      String.ofList (List.replicate 988 'x') ++ "dump\n" := by decide +kernel
  have hpadding : text (String.ofList (List.replicate 988 'x')) = List.replicate 988 0x78 := by
    rw [text_ascii, String.toList_ofList, List.map_replicate]
    · rfl
    · intro c hc
      rw [String.toList_ofList] at hc
      rw [List.eq_of_mem_replicate hc]
      decide
  rw [forwarded, hformat, text_append, text_append, hpadding, firstPiece]

theorem fgets_padded (rest : Bytes) :
    fgets Data.lineSize (forwarded paddedCreate ++ rest) =
      some (firstPiece, text "dump\n" ++ rest) := by
  have hhead : text "[1000000] @@@ create 00000001 4096 " =
      "[1000000] @@@ create 00000001 4096 ".toList.map byte := text_literal (by decide)
  rw [forwarded_padded, List.append_assoc]
  apply fgets_full
  · rw [firstPiece, hhead, List.mem_append, List.mem_replicate]
    decide
  · rw [firstPiece, hhead, List.length_append, List.length_replicate]
    rfl

theorem readStream_padded {rest : Bytes} {lines : List Bytes} (h : (readStream rest).1 = lines) :
    (readStream (forwarded paddedCreate ++ rest)).1 = firstPiece :: text "dump\n" :: lines := by
  rw [readStream_cons (fgets_padded _), readStream_cons (fgets_line dump_isLine dump_short _), h]

theorem short_isLine : Lines.IsLine 0x0a (forwarded shortCreate) ∧
    (forwarded shortCreate).length < Data.lineSize := by
  have hsendable : Sendable shortCreate := by decide +kernel
  exact ⟨hsendable.isLine, hsendable.short⟩

/-- The process has both buffers after the commands. -/
theorem processRun_stale : ∃ data, processRun [paddedCreate, shortCreate] = .ok data ∧
    data.mruBuffers.length = 2 := by
  have hboth : (run [firstPiece, text "dump\n", forwarded shortCreate]).toOption.map
      (fun data => data.mruBuffers.length) = some 2 := by decide +kernel
  have hshort : (readStream [forwarded shortCreate].flatten).1 = [forwarded shortCreate] :=
    (readStream_lines (by simpa using short_isLine)).2
  rw [List.flatten_singleton] at hshort
  have hpieces : processRun [paddedCreate, shortCreate] =
      run [firstPiece, text "dump\n", forwarded shortCreate] := by
    rw [processRun, List.flatMap_cons, List.flatMap_singleton, readStream_padded hshort]
  rw [hpieces]
  exact exists_run hboth

/-- The answer to the next request was printed in front of the second command. -/
theorem stale_answer {p : DrmPool} (h : Follows [] p) :
    ∃ buffers drmMm, buffers.length = 1 ∧ (∀ buf ∈ buffers, buf.offset.isSome = true) ∧
      ((p.processCommand paddedCreate).processCommand shortCreate).pagedInBuffers =
        .ok (buffers, drmMm) := by
  obtain ⟨read, behind, data, strays, hhistory, hstdin, hrun, htwins, hstrays⟩ := h.process
  obtain ⟨rfl, rfl⟩ := List.append_eq_nil_iff.mp hhistory.symm
  rw [hstrays nofun] at htwins
  have hinit : initData = .ok data := by
    rw [processRun] at hrun
    obtain ⟨data', hinit, hdata⟩ := bind_ok hrun
    cases hdata
    exact hinit
  have hone : (run [firstPiece]).toOption.map (fun data => data.mruBuffers.length) = some 1 := by
    decide +kernel
  have hall : (run [firstPiece, text "dump\n", forwarded shortCreate, text "dump\n"]).toOption.map
      (fun data => data.mruBuffers.length) = some 2 := by decide +kernel
  obtain ⟨shown, hshown, hlength⟩ := exists_run hone
  obtain ⟨last, hlast, _⟩ := exists_run hall
  rw [run, bind_of_ok hinit] at hshown hlast
  have hfront : [firstPiece, text "dump\n", forwarded shortCreate, text "dump\n"] =
      [firstPiece] ++ text "dump\n" :: [forwarded shortCreate, text "dump\n"] := rfl
  rw [hfront, processLines_append, bind_of_ok hshown, processLines_cons, processLine_dump] at hlast
  have hquiet : ∀ line ∈ [firstPiece], ¬ IsDump line := by
    have hmark : (lineText firstPiece).isSome = true := by decide +kernel
    rintro line hline ⟨hnone, _⟩
    rw [List.mem_singleton.mp hline] at hnone
    rw [lineText, hnone] at hmark
    cases hmark
  have hlines : (readStream (((p.processCommand paddedCreate).processCommand shortCreate).stdin ++
      text "dump\n")).1 = [firstPiece] ++ text "dump\n" :: [forwarded shortCreate, text "dump\n"] := by
    have hbehind : (readStream [forwarded shortCreate, text "dump\n"].flatten).1 =
        [forwarded shortCreate, text "dump\n"] :=
      (readStream_lines (by simpa using ⟨short_isLine, dump_isLine, dump_short⟩)).2
    have hstream : ((p.processCommand paddedCreate).processCommand shortCreate).stdin ++
        text "dump\n" =
          forwarded paddedCreate ++ [forwarded shortCreate, text "dump\n"].flatten := by
      change p.stdin ++ forwarded paddedCreate ++ forwarded shortCreate ++ text "dump\n" = _
      simp [hstdin]
    rw [hstream, readStream_padded hbehind]
    rfl
  obtain ⟨drmMm, hanswer⟩ := pagedInBuffers_stray
    (p := (p.processCommand paddedCreate).processCommand shortCreate) rfl htwins hlines hquiet
    hshown hlast
  refine ⟨_, drmMm, ?_, ?_, hanswer⟩
  · rw [List.length_map, hlength]
  · intro buf hbuf
    obtain ⟨q, _, rfl⟩ := List.mem_map.mp hbuf
    rfl

theorem processed_stale : Processed [paddedCreate, shortCreate] := by
  obtain ⟨data, hdata, _⟩ := processRun_stale
  exact processed_of_returns (by decide +kernel) (by decide +kernel) ⟨data, hdata⟩

/-- The second command finds the video at its timestamp, so that both lines go to the
process without a request in between. -/
theorem stale_after : ∃ s p, Main.after [paddedCreate, shortCreate] = .ok s ∧
    s.Keeps [paddedCreate, shortCreate] [paddedCreate, shortCreate] ∧ Follows [] p ∧
    s.pools.drmMm = (p.processCommand paddedCreate).processCommand shortCreate := by
  have hrun : Processed ([paddedCreate] ++ [shortCreate]) := processed_stale
  have hnone : Processed ([] ++ [paddedCreate, shortCreate]) := processed_stale
  obtain ⟨s₀, hstart, hkeeps₀⟩ := start_keeps [paddedCreate, shortCreate]
  obtain ⟨s₁, hfirst, hkeeps₁⟩ := hkeeps₀.processCommand (c := paddedCreate) hrun.front rfl
  obtain ⟨s₂, hsecond, hkeeps₂⟩ := hkeeps₁.processCommand hrun rfl
  obtain ⟨drawn, hdrawn, hpools, _⟩ := hkeeps₀.catchUp (c := paddedCreate) hnone.front rfl
  have hreached : shortCreate.timestamp ≤ s₁.video.timestamp := by
    rw [Video.timestamp, s₁.video.counted]
    exact hkeeps₁.recorded.due.1 _ List.mem_cons_self
  have hforwarded : s₁.pools.drmMm = drawn.pools.drmMm.processCommand paddedCreate := by
    obtain ⟨caught, hcaught, heq⟩ := processCommand_drmMm hfirst
    rw [hdrawn] at hcaught
    cases hcaught
    exact heq
  have hforwarded' : s₂.pools.drmMm = s₁.pools.drmMm.processCommand shortCreate := by
    obtain ⟨caught, hcaught, heq⟩ := processCommand_drmMm hsecond
    rw [catchUp_reached hreached] at hcaught
    cases hcaught
    exact heq
  refine ⟨s₂, drawn.pools.drmMm, ?_, hkeeps₂, hpools.drmMm, ?_⟩
  · rw [Main.after, bind_of_ok hstart, List.foldlM_cons, bind_of_ok hfirst, List.foldlM_cons,
      bind_of_ok hsecond]
    rfl
  · rw [hforwarded', hforwarded]

/-- The last frames show one buffer of test-drm-mm, which has two. -/
theorem staleLog_not_inStep : logCommands staleLog ≠ [] ∧ Processed (logCommands staleLog) ∧
    ∃ video, main staleLog = .ok video ∧ ¬ InStep (fun _ => True) staleLog video := by
  obtain ⟨s, p, hafter, hkeeps, hfollows, hdrmMm⟩ := stale_after
  obtain ⟨buffers, drmMm, hone, hoffsets, hanswer⟩ := stale_answer hfollows
  rw [← hdrmMm] at hanswer
  obtain ⟨noCompaction, withCompaction, picture, hdraw, _, _, hdrawn⟩ :=
    hkeeps.pools.draw_buffers hanswer hoffsets
  obtain ⟨video, hfinish, hout⟩ := finish_draw hdraw
  have hmain : main staleLog = .ok video := by
    calc
      _ = s.finish := by rw [main_eq, logCommands_stale, bind_of_ok hafter]
      _ = .ok video := hfinish
  have hframe : video.out[s.video.out.length]? = some [noCompaction, withCompaction, picture] := by
    rw [hout, List.getElem?_append_right le_rfl, Nat.sub_self]
    rfl
  refine ⟨?_, ?_, video, hmain, fun hstep => ?_⟩
  · rw [logCommands_stale]
    exact List.cons_ne_nil _ _
  · rw [logCommands_stale]
    exact processed_stale
  · have hshows := hstep.frames _ _ hframe
    rw [logCommands_stale, eventsBefore_reaching hkeeps.recorded.due.1,
      take_times (List.append_nil _).symm] at hshows
    obtain ⟨_, _, _, hsurface, _, _, hshown⟩ := hshows
    obtain ⟨data, hdata, hdrawn'⟩ := hshown trivial
    obtain ⟨data', hdata', htwo⟩ := processRun_stale
    cases hsurface
    rw [hdata'] at hdata
    cases hdata
    have hlength := Python.drawPool_length hdrawn
    rw [Python.drawPool_length hdrawn', List.length_map, htwo, hone] at hlength
    cases hlength

end Stale

end CmaPool.Compare
