import CmaPool.Lib.Json
import CmaPool.Lib.Lines
import CmaPool.Python.Pool

/-! The `ProcPool` class of cma-pool-log.py, which forwards the commands to
test-drm-mm and asks it for its buffers. -/

namespace CmaPool.Python

/-- The arguments in the format of `process_command`; `None` and the empty list
are both false. -/
def argsFormat : Option (List String) → String
  | none => ""
  | some [] => ""
  | some args => " " ++ join " " args

/-- What `ProcPool.process_command` prints, with its newline. -/
def Command.format (command : Command) : String :=
  "[" ++ toString command.timestamp ++ "] @@@ " ++ command.cmd ++ " " ++
    hexFormat command.bufId ++ argsFormat command.args ++ "\n"

example : Command.format ⟨1000000, "create", 0xe9f4, some ["4096", "bo"]⟩ =
    "[1000000] @@@ create 0000e9f4 4096 bo\n" := by
  decide +kernel

/-- The fields of the object. -/
structure ProcPool where
  overflow : Int
  pagedInBuffers : Option (List Buffer)

def ProcPool.new : ProcPool := { overflow := 0, pagedInBuffers := none }

section State

/-- `data[key]`. -/
def getItem (data : Json.Value) (key : String) : Except Exn Json.Value :=
  match data with
  | .obj members =>
      match (Json.Value.obj members).item? key with
      | some value => pure value
      | none => throw .key
  | _ => throw .type

def asInt : Json.Value → Except Exn Int
  | .int value => pure value
  | _ => throw .type

def asBool : Json.Value → Except Exn Bool
  | .bool value => pure value
  | _ => throw .type

def asStr : Json.Value → Except Exn String
  | .str value => pure value
  | _ => throw .type

def asList : Json.Value → Except Exn (List Json.Value)
  | .arr items => pure items
  | _ => throw .type

def makeBuffer (data : Json.Value) : Except Exn Buffer := do
  let buf := Buffer.new (← asInt (← getItem data "size")) (← asBool (← getItem data "unmoveable"))
  let offset ← asInt (← getItem data "offset")
  let inUse ← asBool (← getItem data "in_use")
  let madv ← asStr (← getItem data "madv")
  return { buf with offset := some offset, inUse, madv }

/-- The text of the lines, decoded as UTF-8. -/
def decode (parts : List (List UInt8)) : Except Exn String :=
  match String.fromUTF8? parts.flatten.toByteArray with
  | some text => pure text
  | none => throw .value

/-- `json.loads`. -/
def loads (text : String) : Except Exn Json.Value :=
  match Json.loads text with
  | some value => pure value
  | none => throw .value

/-- What `paged_in_buffers` makes of the lines that it has read: the overflow and
the buffers. -/
def readState (parts : List (List UInt8)) : Except Exn (Int × List Buffer) := do
  let state ← loads (← decode parts)
  let overflow ← asInt (← getItem state "overflow")
  let buffers ← (← asList (← getItem state "buffers")).mapM makeBuffer
  return (overflow, buffers)

/-- A line of `proc.stdout`, when all of it is there. -/
def readLine (stdout : List UInt8) : Option (List UInt8 × List UInt8) :=
  Lines.cutLine 0x0a stdout

/-- `line.startswith('}')`. -/
def closes (line : List UInt8) : Bool := line.head? = some 0x7d

end State

end CmaPool.Python
