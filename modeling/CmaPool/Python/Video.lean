import CmaPool.Lib.Sampling
import CmaPool.Python.Runs

/-! The drawing of the pools and the `Video` class of cma-pool-log.py.

A surface is kept as what `draw_pool` draws on it: for every pool its name, the
rectangles of its buffers in bytes of the pool, and the overflow. The rest of the
frame is the same in all frames. -/

namespace CmaPool.Python

open Sampling

inductive Color
  | unmoveable
  | inUse
  | buffer
  deriving DecidableEq

structure Rectangle where
  color : Color
  offset : Int
  size : Int
  deriving DecidableEq

structure Picture where
  name : String
  rectangles : List Rectangle
  overflow : Int
  deriving DecidableEq

abbrev Surface := List Picture

def Buffer.color (buf : Buffer) : Color :=
  if buf.unmoveable then .unmoveable else if buf.inUse then .inUse else .buffer

/-- An offset that is `None` cannot be scaled. -/
def drawBuffer (buf : Buffer) : Except Exn Rectangle :=
  match buf.offset with
  | none => throw .type
  | some offset => pure { color := buf.color, offset, size := buf.size }

def drawPool (name : String) (buffers : List Buffer) (overflow : Int) : Except Exn Picture := do
  let rectangles ← buffers.mapM drawBuffer
  return { name, rectangles, overflow }

/-- `out` is what was written to ffmpeg. -/
structure Video where
  out : List Surface
  surface : Surface
  nFrames : Nat
  counted : nFrames = out.length

namespace Video

def frameRate : Nat := 30

def new : Video := { out := [], surface := [], nFrames := 0, counted := rfl }

def duplicateFrame (video : Video) : Video where
  out := video.out ++ [video.surface]
  surface := video.surface
  nFrames := video.nFrames + 1
  counted := by rw [List.length_append, video.counted]; rfl

/-- A frame from `begin_frame` to `end_frame`. -/
def drawFrame (video : Video) (surface : Surface) : Video :=
  { video with surface }.duplicateFrame

def timestamp (video : Video) : Int := video.nFrames * 1000000 / frameRate

/-- The loop of `main` that waits for the timestamp of a command. -/
def duplicateUntil (timestamp : Int) : Nat → Video → Video
  | 0, video => video
  | fuel + 1, video =>
      if video.timestamp < timestamp then duplicateUntil timestamp fuel video.duplicateFrame
      else video

/-- What `main` does when the timestamp of a command is ahead of the video. -/
def drawUntil (video : Video) (surface : Surface) (timestamp : Int) : Video :=
  let video := video.drawFrame surface
  duplicateUntil timestamp (timestamp - video.timestamp).toNat video

end Video

section Drawing

variable {buffers : List Buffer}

theorem drawBuffers_ok (h : ∀ buf ∈ buffers, buf.offset.isSome = true) :
    ∃ rectangles, buffers.mapM drawBuffer = .ok rectangles := by
  induction buffers with
  | nil => exact ⟨[], rfl⟩
  | cons buf buffers ih =>
      obtain ⟨offset, hoffset⟩ := Option.isSome_iff_exists.mp (h buf List.mem_cons_self)
      obtain ⟨rectangles, hrest⟩ := ih fun buf' hbuf' => h buf' (List.mem_cons_of_mem _ hbuf')
      have hdrawn : drawBuffer buf = .ok { color := buf.color, offset, size := buf.size } := by
        rw [drawBuffer, hoffset]
        rfl
      refine ⟨{ color := buf.color, offset, size := buf.size } :: rectangles, ?_⟩
      rw [List.mapM_cons, hdrawn, hrest]
      rfl

/-- A pool whose buffers have their offsets is drawn. -/
theorem drawPool_ok (h : ∀ buf ∈ buffers, buf.offset.isSome = true) (name : String)
    (overflow : Int) : ∃ picture, drawPool name buffers overflow = .ok picture := by
  obtain ⟨rectangles, hdrawn⟩ := drawBuffers_ok h
  refine ⟨{ name, rectangles, overflow }, ?_⟩
  rw [drawPool, hdrawn]
  rfl

theorem drawBuffers_length {rectangles : List Rectangle}
    (h : buffers.mapM drawBuffer = .ok rectangles) : rectangles.length = buffers.length := by
  induction buffers generalizing rectangles with
  | nil =>
      cases h
      rfl
  | cons buf buffers ih =>
      rw [List.mapM_cons] at h
      cases hfirst : drawBuffer buf with
      | error exn =>
          rw [hfirst] at h
          cases h
      | ok rectangle =>
          cases hrest : buffers.mapM drawBuffer with
          | error exn =>
              rw [hfirst, hrest] at h
              cases h
          | ok rest =>
              rw [hfirst, hrest] at h
              cases h
              rw [List.length_cons, List.length_cons, ih hrest]

/-- A picture has a rectangle for each buffer. -/
theorem drawPool_length {name : String} {overflow : Int} {picture : Picture}
    (h : drawPool name buffers overflow = .ok picture) :
    picture.rectangles.length = buffers.length := by
  rw [drawPool] at h
  cases hdrawn : buffers.mapM drawBuffer with
  | error exn =>
      rw [hdrawn] at h
      cases h
  | ok rectangles =>
      rw [hdrawn] at h
      cases h
      exact drawBuffers_length hdrawn

end Drawing

section Clock

/-- The timestamp after a number of frames. -/
def clock (n : Nat) : Int := n * 1000000 / Video.frameRate

theorem clock_mono : Monotone clock := by
  intro n m hle
  rw [clock, clock, Video.frameRate]
  omega

/-- Every frame takes a microsecond at least. -/
theorem clock_add (n count : Nat) : clock n + count ≤ clock (n + count) := by
  rw [clock, clock, Video.frameRate]
  omega

end Clock

section Frames

variable (video : Video) (count : Nat)

theorem duplicateFrames_out :
    (Video.duplicateFrame^[count] video).out = video.out ++ List.replicate count video.surface := by
  induction count generalizing video with
  | zero => simp
  | succ count ih =>
      calc
        _ = video.duplicateFrame.out ++ List.replicate count video.surface :=
          ih video.duplicateFrame
        _ = video.out ++ [video.surface] ++ List.replicate count video.surface := rfl
        _ = video.out ++ List.replicate (count + 1) video.surface := by
          rw [List.append_assoc, List.singleton_append, ← List.replicate_succ]

/-- A frame and its duplicates. -/
theorem drawFrames_out (surface : Surface) :
    (Video.duplicateFrame^[count] (video.drawFrame surface)).out =
      video.out ++ List.replicate (count + 1) surface := by
  calc
    _ = video.out ++ [surface] ++ List.replicate count surface := duplicateFrames_out _ count
    _ = video.out ++ List.replicate (count + 1) surface := by
      rw [List.append_assoc, List.singleton_append, ← List.replicate_succ]

variable {video} {timestamp : Int}

theorem duplicateUntil_least {fuel : Nat} (hfuel : timestamp ≤ clock (video.nFrames + fuel)) :
    ∃ count, Video.duplicateUntil timestamp fuel video = Video.duplicateFrame^[count] video ∧
      IsLeast {n | video.nFrames ≤ n ∧ timestamp ≤ clock n} (video.nFrames + count) := by
  induction fuel generalizing video with
  | zero => exact ⟨0, rfl, ⟨le_rfl, hfuel⟩, fun n hn => hn.1⟩
  | succ fuel ih =>
      rw [Video.duplicateUntil]
      split
      · next hlate =>
          have hframes : video.duplicateFrame.nFrames = video.nFrames + 1 := rfl
          have hless : timestamp ≤ clock (video.duplicateFrame.nFrames + fuel) := by
            rw [hframes, Nat.add_right_comm]
            exact hfuel
          obtain ⟨count, hloop, hleast⟩ := ih hless
          rw [hframes, Nat.add_right_comm] at hleast
          exact ⟨count + 1, hloop, wait_succ hlate hleast⟩
      · next hreached => exact ⟨0, rfl, ⟨le_rfl, Int.not_lt.mp hreached⟩, fun n hn => hn.1⟩

/-- The frames up to the timestamp show the surface. -/
theorem drawUntil_least (surface : Surface) (hlate : video.timestamp < timestamp) :
    ∃ count, (video.drawUntil surface timestamp).out =
        video.out ++ List.replicate count surface ∧
      IsLeast {n | video.out.length ≤ n ∧ timestamp ≤ clock n} (video.out.length + count) := by
  have hdrawn : (video.drawFrame surface).nFrames = video.out.length + 1 := by
    rw [← video.counted]
    rfl
  have hfuel : timestamp ≤ clock ((video.drawFrame surface).nFrames +
      (timestamp - (video.drawFrame surface).timestamp).toNat) := by
    have hfast := clock_add (video.drawFrame surface).nFrames
      (timestamp - (video.drawFrame surface).timestamp).toNat
    have hclock : (video.drawFrame surface).timestamp = clock (video.drawFrame surface).nFrames :=
      rfl
    omega
  obtain ⟨count, hloop, hleast⟩ := duplicateUntil_least hfuel
  rw [hdrawn] at hleast
  refine ⟨count + 1, ?_, ?_⟩
  · exact (congrArg Video.out hloop).trans (drawFrames_out video count surface)
  · rw [Video.timestamp, video.counted] at hlate
    rw [Nat.add_assoc, Nat.add_comm 1] at hleast
    exact wait_succ hlate hleast

end Frames

end CmaPool.Python
