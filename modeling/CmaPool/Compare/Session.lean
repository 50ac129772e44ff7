import CmaPool.Compare.Forwarding
import CmaPool.TestDrm.Dump
import CmaPool.TestDrm.Runs

/-! A `ProcPool` and the test-drm-mm process that it runs.

What the Python program prints waits in the buffer of the pipe until it is
flushed, and any part of it may be written before that. The process reads its
lines with `fgets`; what it prints arrives in parts as well. The two programs
take their steps in any order. -/

namespace CmaPool.Compare

open TestDrm

/-- A call of a method of the `ProcPool`. -/
inductive Call
  | processCommand (command : Python.Command)
  | pagedInBuffers

/-- Where the Python program stands: `paged_in_buffers` flushes the request and
then reads the answer. -/
inductive Activity
  | idle
  | flushing
  | reading (parts : List Bytes)
  | raised (exn : Python.Exn)

/-- What a call of `paged_in_buffers` read from the pipe, the list that it
returned and the overflow then. -/
structure Reply where
  consumed : Bytes
  buffers : List Python.Buffer
  overflow : Int

structure Session where
  calls : List Call
  pool : Python.ProcPool
  activity : Activity
  replies : List Reply
  buffered : Bytes
  stdin : Bytes
  data : Data
  stdout : Bytes

/-- The start, with the calls that are to be made. `Data.stdout` holds what has
been printed and not been written yet. -/
def Session.start (calls : List Call) (data : Data) : Session where
  calls
  pool := Python.ProcPool.new
  activity := .idle
  replies := []
  buffered := []
  stdin := []
  data
  stdout := []

inductive Session.Step (s : Session) : Session → Prop
  | processCommand {c : Python.Command} {calls : List Call}
      (hcall : s.calls = .processCommand c :: calls) (hidle : s.activity = .idle) :
      Step s { s with
        calls
        pool := { s.pool with pagedInBuffers := none }
        buffered := s.buffered ++ forwarded c }
  | cached {calls : List Call} {buffers : List Python.Buffer}
      (hcall : s.calls = .pagedInBuffers :: calls) (hidle : s.activity = .idle)
      (hcache : s.pool.pagedInBuffers = some buffers) :
      Step s { s with calls, replies := s.replies ++ [⟨[], buffers, s.pool.overflow⟩] }
  | request {calls : List Call} (hcall : s.calls = .pagedInBuffers :: calls)
      (hidle : s.activity = .idle) (hcache : s.pool.pagedInBuffers = none) :
      Step s { s with calls, activity := .flushing, buffered := s.buffered ++ text "dump\n" }
  | write (count : Nat) (hpos : 0 < count) (hcount : count ≤ s.buffered.length) :
      Step s { s with
        buffered := s.buffered.drop count
        stdin := s.stdin ++ s.buffered.take count }
  | flushed (hflushing : s.activity = .flushing) (hempty : s.buffered = []) :
      Step s { s with activity := .reading [] }
  | processLine {line stdin : Bytes} {data : Data}
      (hline : fgets Data.lineSize s.stdin = some (line, stdin))
      (hrun : s.data.processLine line = .ok data) :
      Step s { s with stdin, data := data.nextLine }
  | print (count : Nat) (hpos : 0 < count) (hcount : count ≤ s.data.stdout.length) :
      Step s { s with
        data := { s.data with stdout := s.data.stdout.drop count }
        stdout := s.stdout ++ s.data.stdout.take count }
  | readLine {parts : List Bytes} {line stdout : Bytes} (hreading : s.activity = .reading parts)
      (hline : Python.readLine s.stdout = some (line, stdout))
      (hmore : Python.closes line = false) :
      Step s { s with activity := .reading (parts ++ [line]), stdout }
  | answered {parts : List Bytes} {line stdout : Bytes} {overflow : Int}
      {buffers : List Python.Buffer} (hreading : s.activity = .reading parts)
      (hline : Python.readLine s.stdout = some (line, stdout))
      (hlast : Python.closes line = true)
      (hstate : Python.readState (parts ++ [line]) = .ok (overflow, buffers)) :
      Step s { s with
        pool := { overflow, pagedInBuffers := some buffers }
        activity := .idle
        replies := s.replies ++ [⟨(parts ++ [line]).flatten, buffers, overflow⟩]
        stdout }
  | raised {parts : List Bytes} {line stdout : Bytes} {exn : Python.Exn}
      (hreading : s.activity = .reading parts)
      (hline : Python.readLine s.stdout = some (line, stdout))
      (hlast : Python.closes line = true)
      (hstate : Python.readState (parts ++ [line]) = .error exn) :
      Step s { s with activity := .raised exn, stdout }

/-- The states of every order of steps. -/
def Session.Reached (calls : List Call) (s : Session) : Prop :=
  ∃ data, initData = .ok data ∧ Relation.ReflTransGen Session.Step (Session.start calls data) s

section Exact

/-- The commands among the calls. -/
def commandsOf (calls : List Call) : List Python.Command :=
  calls.filterMap fun
    | .processCommand c => some c
    | .pagedInBuffers => none

/-- The lines that the calls forward. -/
def linesOf (calls : List Call) : List Bytes := (commandsOf calls).map forwarded

/-- For every request the calls before it. -/
def requests (before : List Call) : List Call → List (List Call)
  | [] => []
  | .processCommand c :: calls => requests (before ++ [.processCommand c]) calls
  | .pagedInBuffers :: calls => before :: requests (before ++ [.pagedInBuffers]) calls

/-- A buffer as `dump_data` shows it. -/
def shownBuffer (data : Data) (p : Ptr) : Python.Buffer where
  size := (data.buf p).size
  unmoveable := (data.buf p).unmoveable
  offset := some (data.startOf p)
  inUse := (data.buf p).inUse
  madv := Data.madvStr (data.buf p).madv

/-- The list and the overflow are those of the process after exactly the commands
that were forwarded before. -/
def Shows (before : List Call) (buffers : List Python.Buffer) (overflow : Int) : Prop :=
  ∃ data, run (linesOf before) = .ok data ∧
    buffers = data.mruBuffers.map (shownBuffer data) ∧ overflow = data.overflow

/-- The bytes are one output of `dump_data`: lines of which only the last starts
with a closing brace, and a JSON text. -/
def OneDump (before : List Call) (consumed : Bytes) : Prop :=
  ∃ data parts, run (linesOf before) = .ok data ∧
    data.dumpData.stdout = data.stdout ++ consumed ∧
    consumed = parts.flatten ∧ (∀ part ∈ parts, Lines.IsLine 0x0a part) ∧
    (∀ part ∈ parts.getLast?, Python.closes part = true) ∧
    (∀ part ∈ parts.dropLast, Python.closes part = false) ∧
    ∃ text value, Python.decode parts = .ok text ∧ Json.loads text = some value

/-- A call right after another one returns what that one returned and reads
nothing; every other call reads one output of `dump_data`. -/
structure Exact (before : List Call) (reply : Reply) : Prop where
  shows : Shows before reply.buffers reply.overflow
  cached : before.getLast? = some .pagedInBuffers → reply.consumed = []
  fresh : before.getLast? ≠ some .pagedInBuffers → OneDump before reply.consumed

/-- The call that has not returned yet. -/
def Activity.pending : Activity → List Call
  | .flushing => [.pagedInBuffers]
  | .reading _ => [.pagedInBuffers]
  | _ => []

end Exact

end CmaPool.Compare
