import CmaPool.Drm.Mm
import CmaPool.TestDrm.CString

/-! The test-drm-mm program of main.c.

The lists of buffers are read as lists of the buffers' addresses; `calloc`
returns an address that was never used before. What the program prints is kept
as bytes. -/

namespace CmaPool.TestDrm

open Drm

inductive Madv
  | willneed
  | dontneed
  deriving DecidableEq

abbrev Ptr := Nat

/-- The fields beside `mm_node` and the list links. -/
structure Buffer where
  name : Nat
  pagedIn : Bool
  unmoveable : Bool
  inUse : Bool
  madv : Madv
  size : Nat
  deriving DecidableEq

def Buffer.cleared : Buffer :=
  { name := 0, pagedIn := false, unmoveable := false, inUse := false, madv := .willneed, size := 0 }

structure Data where
  buf : Ptr → Buffer
  nextPtr : Ptr
  allBuffers : List Ptr
  mruBuffers : List Ptr
  mm : DrmMm
  lineNum : Nat
  overflow : Nat
  stdout : Bytes
  stderr : Bytes

namespace Data

def setBuf (data : Data) (p : Ptr) (buf : Buffer) : Data :=
  { data with buf := Function.update data.buf p buf }

def eprint (data : Data) (message : Bytes) : Data :=
  { data with stderr := data.stderr ++ message }

def findBuffer (data : Data) (name : Nat) : Option Ptr :=
  data.allBuffers.find? fun p => (data.buf p).name = name

def unknownBuffer (data : Data) (name : Nat) : Bytes :=
  text "line " ++ decimal data.lineNum ++ text ": unknown buffer " ++ decimal08 name ++ text "\n"

def removeBufferFromPool (data : Data) (p : Ptr) : Except Bug Data := do
  let mm ← data.mm.removeNode (.buf p)
  let mruBuffers ← eraseEntry data.mruBuffers p
  let buf := data.buf p
  return { data with mm, mruBuffers, overflow := add64 data.overflow buf.size }.setBuf p
    { buf with pagedIn := false }

def freeBuffer (data : Data) (p : Ptr) : Except Bug Data := do
  let data ← if (data.buf p).pagedIn then data.removeBufferFromPool p else pure data
  let allBuffers ← eraseEntry data.allBuffers p
  return { data with allBuffers, overflow := sub64 data.overflow (data.buf p).size }

def freeBuffers (data : Data) : Except Bug Data :=
  data.allBuffers.foldlM freeBuffer data

/-- The buffers from the least recently used on go on the roster until one of
them makes a hole; the list is that of the buffers added, the latest first. -/
def scanForEviction (data : Data) (scan : DrmMmScan) (evictionList : List Ptr) :
    List Ptr → Except Bug (Bool × DrmMmScan × List Ptr × Data)
  | [] => pure (false, scan, evictionList, data)
  | p :: lru =>
      if (data.buf p).inUse || (data.buf p).unmoveable then
        scanForEviction data scan evictionList lru
      else do
        let (found, scan, mm) ← data.mm.scanAddBlock scan (.buf p)
        if found then
          return (true, scan, p :: evictionList, { data with mm })
        else
          scanForEviction { data with mm } scan (p :: evictionList) lru

/-- The clean-up when nothing was found. -/
def removeFromRoster (data : Data) (scan : DrmMmScan) : List Ptr → Except Bug Data
  | [] => pure data
  | p :: evictionList => do
      let (ret, mm) ← data.mm.scanRemoveBlock scan (.buf p)
      bugOn (ret = true) .pageOutBuffers
      removeFromRoster { data with mm } scan evictionList

/-- The first step after a hit: the buffers that are to be evicted. -/
def chooseEvicted (data : Data) (scan : DrmMmScan) : List Ptr → Except Bug (List Ptr × Data)
  | [] => pure ([], data)
  | p :: evictionList => do
      let (evict, mm) ← data.mm.scanRemoveBlock scan (.buf p)
      let (evicted, data) ← chooseEvicted { data with mm } scan evictionList
      return (if evict then p :: evicted else evicted, data)

def pageOutBuffersForInsertion (data : Data) (size : Nat) : Except Bug (Bool × Data) := do
  let scan ← data.mm.scanInitWithRange size pageSize 0 poolSize
  let (found, scan, evictionList, data) ← data.scanForEviction scan [] data.mruBuffers.reverse
  if found then
    let (evicted, data) ← data.chooseEvicted scan evictionList
    return (true, ← evicted.foldlM removeBufferFromPool data)
  else
    return (false, ← data.removeFromRoster scan evictionList)

def userspaceCachePurge (data : Data) : Except Bug Data :=
  data.mruBuffers.foldlM (fun data p =>
    let buf := data.buf p
    if buf.madv = .dontneed ∧ !buf.inUse ∧ !buf.unmoveable then data.removeBufferFromPool p
    else pure data) data

def insertBufferInCmaPool (data : Data) (p : Ptr) (mode : InsertMode) :
    Except Bug (Bool × Data) := do
  let buf := data.buf p
  let (ret, mm) ← data.mm.insertNodeGeneric (.buf p) buf.size pageSize mode
  let data := { data with mm }
  if ret ≠ 0 then
    return (false, data)
  return (true, { data with
    mruBuffers := p :: data.mruBuffers
    overflow := sub64 data.overflow buf.size }.setBuf p { buf with pagedIn := true })

def noInsertionPoint (size : Nat) : Bytes :=
  text "Couldn't find insertion point for buffer of size " ++ decimal size ++ text "\n"

/-- The last step of `page_in_buffer`. -/
def evictAndInsert (data : Data) (p : Ptr) : Except Bug (Bool × Data) := do
  let (found, data) ← data.pageOutBuffersForInsertion (data.buf p).size
  let (inserted, data) ← if found then data.insertBufferInCmaPool p .evict else pure (false, data)
  if inserted then
    return (true, data)
  return (false, data.eprint (noInsertionPoint (data.buf p).size))

def pageInBuffer (data : Data) (p : Ptr) : Except Bug (Bool × Data) := do
  let (inserted, data) ← data.insertBufferInCmaPool p .best
  if inserted then
    return (true, data)
  let data ← data.userspaceCachePurge
  let (inserted, data) ← data.insertBufferInCmaPool p .best
  if inserted then
    return (true, data)
  data.evictAndInsert p

def unexpectedArgs (data : Data) : Bytes :=
  text "line " ++ decimal data.lineNum ++ text ": unexpected args\n"

/-- `check_no_args` and `find_buffer_or_error`, as every handler without
arguments starts. -/
def withBuffer (data : Data) (name : Nat) (args : Bytes) (f : Ptr → Except Bug Data) :
    Except Bug Data :=
  if args ≠ [] then
    pure (data.eprint data.unexpectedArgs)
  else
    match data.findBuffer name with
    | none => pure (data.eprint (data.unknownBuffer name))
    | some p => f p

def bufDestroy (data : Data) (name : Nat) (args : Bytes) : Except Bug Data :=
  data.withBuffer name args data.freeBuffer

def usecntMessage (data : Data) (name : Nat) (command state : String) : Bytes :=
  text "line " ++ decimal data.lineNum ++ text ": " ++ text command ++ text " on buffer " ++
    decimal08 name ++ text " but buffer " ++ text state ++ text "\n"

def bufAddUsecnt (data : Data) (name : Nat) (args : Bytes) : Except Bug Data :=
  data.withBuffer name args fun p =>
    let data := if (data.buf p).inUse then
        data.eprint (data.usecntMessage name "add_usecnt" "already in use")
      else data
    pure (data.setBuf p { data.buf p with inUse := true })

def bufRemoveUsecnt (data : Data) (name : Nat) (args : Bytes) : Except Bug Data :=
  data.withBuffer name args fun p =>
    let data := if !(data.buf p).inUse then
        data.eprint (data.usecntMessage name "remove_usecnt" "not in use")
      else data
    pure (data.setBuf p { data.buf p with inUse := false })

def alreadyExists (data : Data) (name : Nat) : Bytes :=
  text "line " ++ decimal data.lineNum ++ text ": creating buffer " ++ hex08 name ++
    text " but buffer already exists\n"

def badBufferSize (data : Data) : Bytes :=
  text "line " ++ decimal data.lineNum ++ text ": bad buffer size\n"

/-- The new buffer on the list of all buffers, with its size in the overflow. -/
def register (data : Data) (buf : Buffer) : Data :=
  { data with
    nextPtr := data.nextPtr + 1
    allBuffers := data.nextPtr :: data.allBuffers
    mm := data.mm.clearNode (.buf data.nextPtr)
    overflow := add64 data.overflow buf.size }.setBuf data.nextPtr buf

def newBuffer (name size : Nat) (unmoveable : Bool) : Buffer :=
  { Buffer.cleared with name, size, madv := .willneed, unmoveable }

def bufCreate (data : Data) (name : Nat) (args : Bytes) : Except Bug Data :=
  match data.findBuffer name with
  | some _ => pure (data.eprint (data.alreadyExists name))
  | none =>
      match scanSize args with
      | none => pure (data.eprint data.badBufferSize)
      | some (size, argsOffset) => do
          let unmoveable := (args.drop argsOffset).any fun c => !isspace c
          let created := data.register (newBuffer name size unmoveable)
          return (← created.pageInBuffer data.nextPtr).2

def bufUse (data : Data) (name : Nat) (args : Bytes) : Except Bug Data :=
  data.withBuffer name args fun p =>
    if (data.buf p).pagedIn then do
      let mruBuffers ← eraseEntry data.mruBuffers p
      return { data with mruBuffers := p :: mruBuffers }
    else do
      return (← data.pageInBuffer p).2

/-- `madv_map`. -/
def madvMap : List (Bytes × Madv) := [(text "willneed", .willneed), (text "dontneed", .dontneed)]

/-- The loop over `madv_map`; `none` when it runs off the end. -/
def setMadv (data : Data) (p : Ptr) (word : Bytes) : List (Bytes × Madv) → Option Data
  | [] => none
  | (name, value) :: _ =>
      -- the return of the loop body does not depend on the comparison
      some (if name = word then data.setBuf p { data.buf p with madv := value } else data)

def invalidMadv (data : Data) (word args : Bytes) : Bytes :=
  text "line " ++ decimal data.lineNum ++ text ": invalid madv value " ++
    padLeft 0x20 word.length args ++ text "\n"

def bufMadv (data : Data) (name : Nat) (args : Bytes) : Except Bug Data :=
  match data.findBuffer name with
  | none => pure (data.eprint (data.unknownBuffer name))
  | some p =>
      let word := args.takeWhile fun c => !isspace c
      match data.setMadv p word madvMap with
      | some data => pure data
      | none => pure (data.eprint (data.invalidMadv word args))

/-- The table of `process_command`. -/
def commands : List (Bytes × (Data → Nat → Bytes → Except Bug Data)) :=
  [(text "destroy", bufDestroy),
    (text "add_usecnt", bufAddUsecnt),
    (text "remove_usecnt", bufRemoveUsecnt),
    (text "create", bufCreate),
    (text "use", bufUse),
    (text "madv", bufMadv)]

def invalidAddress (data : Data) : Bytes :=
  text "invalid address on line " ++ decimal data.lineNum ++ text "\n"

def unknownCommand (data : Data) (word command : Bytes) : Bytes :=
  text "unknown command " ++ padLeft 0x20 word.length command ++ text " on line " ++
    decimal data.lineNum ++ text "\n"

def processCommand (data : Data) (command : Bytes) : Except Bug Data :=
  match strchr command 0x20 with
  | none => pure data
  | some commandEnd =>
      let word := command.take commandEnd
      let args := command.drop (commandEnd + 1)
      match scanHex32 args with
      | none => pure (data.eprint data.invalidAddress)
      | some (name, argsOffset) =>
          match commands.lookup word with
          | some func => func data name (skipSpaces (args.drop argsOffset))
          | none => pure (data.eprint (data.unknownCommand word command))

def boolStr (value : Bool) : String := if value then "true" else "false"

def madvStr : Madv → String
  | .dontneed => "dontneed"
  | .willneed => "willneed"

def dumpBuffer (data : Data) (p : Ptr) : Bytes :=
  let buf := data.buf p
  text "\n      \x7b \"name\": " ++ decimal buf.name ++
    text ", \"size\": " ++ decimal buf.size ++
    text ", \"unmoveable\": " ++ text (boolStr buf.unmoveable) ++
    text ", \"in_use\": " ++ text (boolStr buf.inUse) ++
    text ", \"madv\": \"" ++ text (madvStr buf.madv) ++
    text "\", \"offset\": " ++ decimal (data.mm.node (.buf p)).start ++ text " \x7d"

def dumpData (data : Data) : Data :=
  { data with
    stdout := data.stdout ++ text "\x7b\n   \"overflow\": " ++ decimal data.overflow ++
      text ",\n   \"buffers\": [" ++
      (text ",").intercalate (data.mruBuffers.map data.dumpBuffer) ++
      text "\n   ]\n\x7d\n" }

def commandMarker : Bytes := text "] @@@ "

def processLine (data : Data) (line : Bytes) : Except Bug Data :=
  let line := cString line
  match strstr commandMarker line with
  | some markerPos => data.processCommand (line.drop (markerPos + commandMarker.length))
  | none =>
      let line := skipSpaces line
      if startsWith line (text "dump") ∧ (line.drop 4).all isspace then pure data.dumpData
      else pure data

/-- The size of the line buffer of `process_file`. -/
def lineSize : Nat := 1024

/-- The lines in turn, as `process_file` reads them. -/
def processLines (data : Data) : List Bytes → Except Bug Data
  | [] => pure data
  | line :: lines => do
      let data ← data.processLine line
      processLines { data with lineNum := data.lineNum + 1 } lines

end Data

/-- The data when `process_file` starts. -/
def initData : Except Bug Data := do
  let mm ← DrmMm.init 0 poolSize
  return {
    buf := fun _ => Buffer.cleared
    nextPtr := 0
    allBuffers := []
    mruBuffers := []
    mm
    lineNum := 1
    overflow := 0
    stdout := []
    stderr := [] }

/-- The data after the lines; an error is the assertion that aborted the run. -/
def run (lines : List Bytes) : Except Bug Data := do
  (← initData).processLines lines

end CmaPool.TestDrm
