import CmaPool.Python.Builtins

/-! The `Pool` class of cma-pool-log.py.

Buffer objects live in a heap of references, since `buffers`, `offset_list` and
`mru_list` share them. A handler either returns or raises, and in both cases
leaves a pool behind: what it changed before raising stays changed. -/

namespace CmaPool.Python

inductive Exn
  | assertion
  | key
  | index
  | type
  | value
  | noSpace (size : Int)
  | diverges
  deriving DecidableEq

/-- The text of the one exception the pool raises itself. -/
def Exn.message : Exn → Option String
  | .noSpace size => some s!"Couldn’t make space for buffer of size {size}"
  | _ => none

structure Buffer where
  size : Int
  unmoveable : Bool
  offset : Option Int
  inUse : Bool
  madv : String
  deriving DecidableEq

def Buffer.new (size : Int) (unmoveable : Bool) : Buffer :=
  { size, unmoveable, offset := none, inUse := false, madv := "willneed" }

abbrev Ref := Nat

structure Pool where
  compact : Bool
  heap : Ref → Buffer
  nextRef : Ref
  buffers : List (Int × Ref)
  mruList : List Ref
  offsetList : List Ref
  overflow : Int

/-- `Pool.SIZE`. -/
def poolSize : Int := 128 * 1024 * 1024

def Pool.new (compact : Bool) : Pool where
  compact
  heap := fun _ => Buffer.new 0 false
  nextRef := 0
  buffers := []
  mruList := []
  offsetList := []
  overflow := 0

structure Command where
  timestamp : Int
  cmd : String
  bufId : Int
  args : Option (List String)

abbrev M := EStateM Exn Pool

def pyAssert (condition : Bool) : M Unit :=
  if condition then pure () else throw .assertion

def getBuffer (r : Ref) : M Buffer := do
  return (← get).heap r

def modifyBuffer (r : Ref) (f : Buffer → Buffer) : M Unit :=
  modify fun s => { s with heap := Function.update s.heap r (f (s.heap r)) }

/-- An offset in a comparison or a sum, where `None` is a `TypeError`. -/
def getOffset (r : Ref) : M Int := do
  match (← getBuffer r).offset with
  | some offset => pure offset
  | none => throw .type

def offsetListRemove (r : Ref) : M Unit := do
  let s ← get
  if r ∈ s.offsetList then set { s with offsetList := s.offsetList.erase r }
  else throw .value

def mruListRemove (r : Ref) : M Unit := do
  let s ← get
  if r ∈ s.mruList then set { s with mruList := s.mruList.erase r }
  else throw .value

def removeBufferFromPool (r : Ref) : M Unit := do
  offsetListRemove r
  mruListRemove r
  modifyBuffer r fun buf => { buf with offset := none }
  modify fun s => { s with overflow := s.overflow + (s.heap r).size }

/-- The loop of `_page_out_lru_buffer` over the positions below `pos`. -/
def pageOutLruLoop : Nat → M Bool
  | 0 => pure false
  | pos + 1 => do
      match (← get).mruList[pos]? with
      | none => throw .index
      | some r =>
          let buf ← getBuffer r
          if buf.inUse || buf.unmoveable then
            pageOutLruLoop pos
          else
            removeBufferFromPool r
            pure true

def pageOutLruBuffer : M Bool := do
  pageOutLruLoop (← get).mruList.length

def Buffer.purgeable (buf : Buffer) : Bool :=
  buf.madv == "dontneed" && !buf.inUse && !buf.unmoveable

def purgeLoop : Nat → Nat → M Unit
  | 0, _ => throw .diverges
  | fuel + 1, i => do
      match (← get).offsetList[i]? with
      | none => pure ()
      | some r =>
          if (← getBuffer r).purgeable then
            removeBufferFromPool r
            purgeLoop fuel i
          else
            purgeLoop fuel (i + 1)

def purgeUserspaceCache : M Unit := do
  purgeLoop ((← get).offsetList.length + 1) 0

def insertBufferAt (offset : Int) (offsetListPos : Nat) (r : Ref) : M Unit := do
  modifyBuffer r fun buf => { buf with offset := some offset }
  modify fun s => { s with
    offsetList := listInsert s.offsetList offsetListPos r
    mruList := r :: s.mruList
    overflow := s.overflow - (s.heap r).size }

/-- The gaps below the buffers still to visit, then the tail of the pool. -/
def insertBufferLoop (r : Ref) (lastOffset : Int) (pos : Nat) : List Ref → M Bool
  | [] => do
      let buf ← getBuffer r
      if lastOffset + buf.size ≤ poolSize then
        insertBufferAt lastOffset (← get).offsetList.length r
        pure true
      else
        pure false
  | other :: rest => do
      let otherOffset ← getOffset other
      let buf ← getBuffer r
      if otherOffset - lastOffset ≥ buf.size then
        insertBufferAt lastOffset pos r
        pure true
      else
        insertBufferLoop r (otherOffset + (← getBuffer other).size) (pos + 1) rest

def insertBuffer (r : Ref) : M Bool := do
  insertBufferLoop r 0 0 (← get).offsetList

def pageInLoop (r : Ref) : Nat → M Unit
  | 0 => throw .diverges
  | fuel + 1 => do
      if ← insertBuffer r then
        pure ()
      else if ← pageOutLruBuffer then
        pageInLoop r fuel
      else
        throw (.noSpace (← getBuffer r).size)

def pageInBuffer (r : Ref) : M Unit := do
  if (← getBuffer r).offset.isSome then
    pure ()
  else if ← insertBuffer r then
    pure ()
  else
    purgeUserspaceCache
    -- every further turn of the loop follows an eviction
    pageInLoop r ((← get).mruList.length + 1)

def compactLoop (r : Ref) (prevOffset : Int) : List Ref → M Int
  | [] => pure prevOffset
  | other :: rest => do
      let otherOffset ← getOffset other
      if otherOffset ≥ (← getOffset r) then
        pure prevOffset
      else
        compactLoop r (otherOffset + (← getBuffer other).size) rest

def compactBuffer (r : Ref) : M Unit := do
  let prevOffset ← compactLoop r 0 (← get).offsetList
  if prevOffset < (← getOffset r) then
    modifyBuffer r fun buf => { buf with offset := some prevOffset }

/-- `self.buffers[buf_id]`. -/
def findBuffer (bufId : Int) : M Ref := do
  match (← get).buffers.lookup bufId with
  | some r => pure r
  | none => throw .key

/-- `args[0]`. -/
def firstArg (args : Option (List String)) : M String :=
  match args with
  | none => throw .type
  | some [] => throw .index
  | some (arg :: _) => pure arg

def bufDestroy (command : Command) : M Unit := do
  pyAssert command.args.isNone
  let r ← findBuffer command.bufId
  let buf ← getBuffer r
  if buf.offset.isNone then
    modify fun s => { s with overflow := s.overflow - buf.size }
  else
    mruListRemove r
    offsetListRemove r
  modify fun s => { s with buffers := s.buffers.filter fun entry => entry.1 ≠ command.bufId }

def bufAddUsecnt (command : Command) : M Unit := do
  pyAssert command.args.isNone
  let r ← findBuffer command.bufId
  pyAssert (!(← getBuffer r).inUse)
  modifyBuffer r fun buf => { buf with inUse := true }

def bufRemoveUsecnt (command : Command) : M Unit := do
  pyAssert command.args.isNone
  let r ← findBuffer command.bufId
  pyAssert (← getBuffer r).inUse
  modifyBuffer r fun buf => { buf with inUse := false }
  if (← get).compact then
    compactBuffer r

/-- The new `Buffer` object under its id, with its size added to the overflow. -/
def registerBuffer (bufId : Int) (buf : Buffer) : M Ref := do
  let s ← get
  set { s with
    heap := Function.update s.heap s.nextRef buf
    nextRef := s.nextRef + 1
    buffers := s.buffers ++ [(bufId, s.nextRef)]
    overflow := s.overflow + buf.size }
  pure s.nextRef

def bufCreate (command : Command) : M Unit := do
  pyAssert ((← get).buffers.lookup command.bufId).isNone
  match int (← firstArg command.args) with
  | none => throw .value
  | some size =>
      let unmoveable := (command.args.getD []).length > 1
      pageInBuffer (← registerBuffer command.bufId (Buffer.new size unmoveable))

def bufUse (command : Command) : M Unit := do
  pyAssert command.args.isNone
  let r ← findBuffer command.bufId
  pyAssert ((← getBuffer r).madv == "willneed")
  pageInBuffer r
  pyAssert (← getBuffer r).offset.isSome
  mruListRemove r
  modify fun s => { s with mruList := r :: s.mruList }

def bufMadv (command : Command) : M Unit := do
  let madv ← firstArg command.args
  modifyBuffer (← findBuffer command.bufId) fun buf => { buf with madv }

/-- `Pool.COMMANDS`. -/
def commands : List (String × (Command → M Unit)) :=
  [("destroy", bufDestroy),
    ("add_usecnt", bufAddUsecnt),
    ("remove_usecnt", bufRemoveUsecnt),
    ("create", bufCreate),
    ("use", bufUse),
    ("madv", bufMadv)]

def processCommand (command : Command) : M Unit :=
  match commands.lookup command.cmd with
  | some handler => handler command
  | none => throw .key

/-- The commands in turn, up to the first that raises. -/
def processCommands : List Command → M Unit
  | [] => pure ()
  | command :: history => do
      processCommand command
      processCommands history

def stateOf : EStateM.Result Exn Pool Unit → Pool
  | .ok _ s => s
  | .error _ s => s

def raised : EStateM.Result Exn Pool Unit → Option Exn
  | .ok _ _ => none
  | .error e _ => some e

/-- The pool a command leaves behind, returned or raised. -/
def step (s : Pool) (command : Command) : Pool := stateOf (processCommand command s)

def run (compact : Bool) (history : List Command) : Pool :=
  history.foldl step (Pool.new compact)

end CmaPool.Python
