import CmaPool.Compare.Identity
import CmaPool.Compare.Process
import CmaPool.Python.Video

/-! The loop of `main`, which draws the pools ahead of a command that is later than
the video. -/

namespace CmaPool.Compare

open TestDrm Drm Lifting Sampling
open Python (Picture Surface Video clock drawPool logCommands matchLine readCommands)

/-- The pools of `main`. -/
structure Pools where
  noCompaction : Python.Pool
  withCompaction : Python.Pool
  drmMm : DrmPool

namespace Pools

def new (data : Data) : Pools where
  noCompaction := Python.Pool.new false
  withCompaction := Python.Pool.new true
  drmMm := DrmPool.new data

/-- `process_command` of a pool of the Python program. -/
def processPool (s : Python.Pool) (command : Python.Command) : Except Failure Python.Pool :=
  match Python.processCommand command s with
  | .ok _ s => .ok s
  | .error exn _ => .error (.raised exn)

def processCommand (pools : Pools) (command : Python.Command) : Except Failure Pools := do
  let noCompaction ← processPool pools.noCompaction command
  let withCompaction ← processPool pools.withCompaction command
  return { noCompaction, withCompaction, drmMm := pools.drmMm.processCommand command }

def drawPythonPool (name : String) (s : Python.Pool) : Except Failure Picture :=
  raising (drawPool name (s.offsetList.map s.heap) s.overflow)

/-- The loop of `draw_frame` over the pools. -/
def draw (pools : Pools) : Except Failure (Surface × Pools) := do
  let noCompaction ← drawPythonPool "No compaction" pools.noCompaction
  let withCompaction ← drawPythonPool "With compaction" pools.withCompaction
  let (buffers, drmMm) ← pools.drmMm.pagedInBuffers
  let picture ← raising (drawPool "drm_mm" buffers drmMm.pool.overflow)
  return ([noCompaction, withCompaction, picture], { pools with drmMm })

end Pools

structure Main where
  pools : Pools
  video : Video

namespace Main

def start : Except Failure Main := do
  let data ← aborting initData
  return { pools := Pools.new data, video := Video.new }

/-- The frames up to the timestamp of a command. -/
def catchUp (s : Main) (timestamp : Int) : Except Failure Main :=
  if s.video.timestamp < timestamp then do
    let (surface, pools) ← s.pools.draw
    return { pools, video := s.video.drawUntil surface timestamp }
  else
    pure s

/-- What the loop does with a line that matches. -/
def processCommand (s : Main) (command : Python.Command) : Except Failure Main := do
  let s ← s.catchUp command.timestamp
  let pools ← s.pools.processCommand command
  return { s with pools }

def processLines (firstTimestamp : Option Int) (s : Main) : List String → Except Failure Main
  | [] => pure s
  | line :: lines =>
      match matchLine line with
      | none => processLines firstTimestamp s lines
      | some md => do
          let first := firstTimestamp.getD (md.timestamp - 1000000)
          let s ← s.processCommand (md.command first)
          processLines (some first) s lines

/-- The last second of the video. -/
def finish (s : Main) : Except Failure Video := do
  let (surface, _) ← s.pools.draw
  return Video.duplicateFrame^[Video.frameRate - 1] (s.video.drawFrame surface)

end Main

/-- The video of a log. -/
def main (lines : List String) : Except Failure Video := do
  let s ← Main.start
  let s ← s.processLines none lines
  s.finish

/-- The state of `main` after the commands. -/
def Main.after (history : List Python.Command) : Except Failure Main := do
  let s ← Main.start
  history.foldlM Main.processCommand s

section Loop

theorem processLines_commands (firstTimestamp : Option Int) (s : Main) (lines : List String) :
    s.processLines firstTimestamp lines =
      (readCommands firstTimestamp lines).foldlM Main.processCommand s := by
  induction lines generalizing firstTimestamp s with
  | nil => rfl
  | cons line lines ih =>
      rw [Main.processLines, readCommands]
      cases matchLine line with
      | none => exact ih firstTimestamp s
      | some md =>
          rw [List.foldlM_cons]
          exact congrArg _ (funext fun s => ih _ s)

theorem main_eq (lines : List String) :
    main lines = (do
      let s ← Main.after (logCommands lines)
      s.finish) := by
  rw [main, Main.after]
  cases Main.start with
  | error failure => rfl
  | ok s =>
      change (s.processLines none lines >>= Main.finish) = _
      rw [processLines_commands]
      rfl

theorem after_concat (history : List Python.Command) (c : Python.Command) :
    Main.after (history ++ [c]) = (do
      let s ← Main.after history
      s.processCommand c) := by
  rw [Main.after, Main.after]
  cases Main.start with
  | error failure => rfl
  | ok s =>
      change (history ++ [c]).foldlM Main.processCommand s = _
      rw [List.foldlM_append]
      change (history.foldlM Main.processCommand s >>= fun s => s.processCommand c >>= pure) = _
      simp only [bind_pure]
      rfl

end Loop

section Frame

/-- The picture is that of a pool of the Python program after the commands. -/
def PoolShown (name : String) (compact : Bool) (history : List Python.Command)
    (picture : Picture) : Prop :=
  ∃ s, Python.processCommands history (Python.Pool.new compact) = .ok ⟨⟩ s ∧
    drawPool name (s.offsetList.map s.heap) s.overflow = .ok picture

/-- The picture is that of test-drm-mm after the pieces that `fgets` makes of the
lines forwarded for the commands. -/
def DrmShown (history : List Python.Command) (picture : Picture) : Prop :=
  ∃ data, processRun history = .ok data ∧
    drawPool "drm_mm" (data.mruBuffers.map (shownBuffer data)) data.overflow = .ok picture

/-- The surface shows the three pools after the commands, the last one where the
commands are `fit` for it. -/
def FrameShows (fit : List Python.Command → Prop) (history : List Python.Command)
    (surface : Surface) : Prop :=
  ∃ noCompaction withCompaction drmMm, surface = [noCompaction, withCompaction, drmMm] ∧
    PoolShown "No compaction" false history noCompaction ∧
    PoolShown "With compaction" true history withCompaction ∧
    (fit history → DrmShown history drmMm)

/-- No pool fails on the commands. -/
structure Processed (history : List Python.Command) : Prop where
  noCompaction : ∃ s, Python.processCommands history (Python.Pool.new false) = .ok ⟨⟩ s
  withCompaction : ∃ s, Python.processCommands history (Python.Pool.new true) = .ok ⟨⟩ s
  drmMm : ∃ data, processRun history = .ok data

structure Pools.After (history : List Python.Command) (pools : Pools) : Prop where
  noCompaction : Python.processCommands history (Python.Pool.new false) = .ok ⟨⟩ pools.noCompaction
  withCompaction :
    Python.processCommands history (Python.Pool.new true) = .ok ⟨⟩ pools.withCompaction
  drmMm : Follows history pools.drmMm

variable {first second history : List Python.Command} {pools : Pools} {c : Python.Command}

theorem processCommands_front {compact : Bool}
    (h : ∃ s, Python.processCommands (first ++ second) (Python.Pool.new compact) = .ok ⟨⟩ s) :
    ∃ s, Python.processCommands first (Python.Pool.new compact) = .ok ⟨⟩ s := by
  obtain ⟨s, hrun⟩ := h
  rw [Python.processCommands_append, Python.bind_apply] at hrun
  cases hfirst : Python.processCommands first (Python.Pool.new compact) with
  | ok _ s => exact ⟨s, rfl⟩
  | error e s =>
      rw [hfirst] at hrun
      cases hrun

theorem Processed.front (h : Processed (first ++ second)) : Processed first where
  noCompaction := processCommands_front h.noCompaction
  withCompaction := processCommands_front h.withCompaction
  drmMm := by
    obtain ⟨data, hrun⟩ := h.drmMm
    rw [processRun_append] at hrun
    obtain ⟨data₁, hfirst, _⟩ := bind_ok hrun
    exact ⟨data₁, hfirst⟩

theorem processed_of_returns
    (hfirst : Python.raised (Python.processCommands history (Python.Pool.new false)) = none)
    (hsecond : Python.raised (Python.processCommands history (Python.Pool.new true)) = none)
    (hthird : ∃ data, processRun history = .ok data) : Processed history :=
  ⟨⟨_, Python.processCommands_eq history hfirst⟩, ⟨_, Python.processCommands_eq history hsecond⟩,
    hthird⟩

theorem processPool_after {compact : Bool} {s : Python.Pool}
    (h : Python.processCommands history (Python.Pool.new compact) = .ok ⟨⟩ s)
    (hnext : ∃ s', Python.processCommands (history ++ [c]) (Python.Pool.new compact) = .ok ⟨⟩ s') :
    ∃ s', Pools.processPool s c = .ok s' ∧
      Python.processCommands (history ++ [c]) (Python.Pool.new compact) = .ok ⟨⟩ s' := by
  obtain ⟨s', hrun⟩ := hnext
  have hsplit := hrun
  rw [Python.processCommands_append, Python.bind_apply, h] at hsplit
  simp only [Python.processCommands, Python.bind_apply] at hsplit
  cases hstep : Python.processCommand c s with
  | error e s₁ =>
      rw [hstep] at hsplit
      cases hsplit
  | ok u s₁ =>
      rw [hstep] at hsplit
      cases hsplit
      refine ⟨_, ?_, hrun⟩
      rw [Pools.processPool, hstep]

theorem Pools.After.processCommand (h : pools.After history) (hnext : Processed (history ++ [c])) :
    ∃ pools', pools.processCommand c = .ok pools' ∧ pools'.After (history ++ [c]) := by
  obtain ⟨noCompaction, hfirst, hafter⟩ := processPool_after h.noCompaction hnext.noCompaction
  obtain ⟨withCompaction, hsecond, hafter'⟩ := processPool_after h.withCompaction hnext.withCompaction
  refine ⟨{ noCompaction, withCompaction, drmMm := pools.drmMm.processCommand c }, ?_,
    hafter, hafter', h.drmMm.processCommand c⟩
  rw [Pools.processCommand, bind_of_ok hfirst, bind_of_ok hsecond]
  rfl

theorem drawPythonPool_ok {compact : Bool} {s : Python.Pool} (name : String)
    (h : Python.processCommands history (Python.Pool.new compact) = .ok ⟨⟩ s) :
    ∃ picture, Pools.drawPythonPool name s = .ok picture ∧ PoolShown name compact history picture := by
  have hlinked := Python.processCommands_linked (Python.linked_new compact) history h
  have hoffsets : ∀ buf ∈ s.offsetList.map s.heap, buf.offset.isSome = true := by
    intro buf hbuf
    obtain ⟨r, hr, rfl⟩ := List.mem_map.mp hbuf
    obtain ⟨offset, hoffset⟩ := hlinked.offset_of_mem hr
    rw [hoffset]
    rfl
  obtain ⟨picture, hdrawn⟩ := Python.drawPool_ok hoffsets name s.overflow
  refine ⟨picture, ?_, s, h, hdrawn⟩
  rw [Pools.drawPythonPool, hdrawn]
  rfl

/-- The surface shows what the pools return. -/
theorem Pools.After.draw_buffers (h : pools.After history) {buffers : List Python.Buffer}
    {drmMm : DrmPool} (hbuffers : pools.drmMm.pagedInBuffers = .ok (buffers, drmMm))
    (hoffsets : ∀ buf ∈ buffers, buf.offset.isSome = true) :
    ∃ noCompaction withCompaction picture,
      pools.draw = .ok ([noCompaction, withCompaction, picture], { pools with drmMm }) ∧
      PoolShown "No compaction" false history noCompaction ∧
      PoolShown "With compaction" true history withCompaction ∧
      drawPool "drm_mm" buffers drmMm.pool.overflow = .ok picture := by
  obtain ⟨noCompaction, hfirst, hshown⟩ := drawPythonPool_ok "No compaction" h.noCompaction
  obtain ⟨withCompaction, hsecond, hshown'⟩ := drawPythonPool_ok "With compaction" h.withCompaction
  obtain ⟨picture, hdrawn⟩ := Python.drawPool_ok hoffsets "drm_mm" drmMm.pool.overflow
  have hpicture : raising (drawPool "drm_mm" buffers drmMm.pool.overflow) = .ok picture := by
    rw [hdrawn]
    rfl
  refine ⟨noCompaction, withCompaction, picture, ?_, hshown, hshown', hdrawn⟩
  rw [Pools.draw, bind_of_ok hfirst, bind_of_ok hsecond, bind_of_ok hbuffers]
  dsimp only
  rw [bind_of_ok hpicture]
  rfl

theorem Pools.After.draw (h : pools.After history) (hrun : Processed history) :
    ∃ surface pools', pools.draw = .ok (surface, pools') ∧ pools'.After history ∧
      FrameShows Quiet history surface := by
  obtain ⟨data, hdata⟩ := hrun.drmMm
  obtain ⟨buffers, drmMm, hbuffers, hfollows, hanswers⟩ := h.drmMm.pagedInBuffers hdata
  obtain ⟨noCompaction, withCompaction, picture, hdraw, hshown, hshown', hdrawn⟩ :=
    h.draw_buffers hbuffers hanswers.offsets
  refine ⟨_, _, hdraw, ⟨h.noCompaction, h.withCompaction, hfollows⟩,
    noCompaction, withCompaction, picture, rfl, hshown, hshown', ?_⟩
  intro hquiet
  obtain ⟨data', hdata', hlist, hoverflow⟩ := hanswers.shows hquiet
  refine ⟨data', hdata', ?_⟩
  rw [← hlist, ← hoverflow]
  exact hdrawn

end Frame

end CmaPool.Compare
