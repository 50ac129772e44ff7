import CmaPool.TestDrm.Program

/-! The command of a line, ahead of its execution: the handler that
`process_line` ends in, with the name and the arguments it is given. -/

namespace CmaPool.TestDrm

open Drm

inductive Verb
  | destroy
  | addUsecnt
  | removeUsecnt
  | create
  | use
  | madv
  deriving DecidableEq

structure Command where
  verb : Verb
  name : Nat
  args : Bytes
  deriving DecidableEq

def verbs : List (Bytes × Verb) :=
  [(text "destroy", .destroy),
    (text "add_usecnt", .addUsecnt),
    (text "remove_usecnt", .removeUsecnt),
    (text "create", .create),
    (text "use", .use),
    (text "madv", .madv)]

def Verb.handler : Verb → Data → Nat → Bytes → Except Bug Data
  | .destroy => Data.bufDestroy
  | .addUsecnt => Data.bufAddUsecnt
  | .removeUsecnt => Data.bufRemoveUsecnt
  | .create => Data.bufCreate
  | .use => Data.bufUse
  | .madv => Data.bufMadv

def Data.execute (data : Data) (c : Command) : Except Bug Data := c.verb.handler data c.name c.args

def commandOf (command : Bytes) : Option Command := do
  let commandEnd ← strchr command 0x20
  let args := command.drop (commandEnd + 1)
  let (name, argsOffset) ← scanHex32 args
  let verb ← verbs.lookup (command.take commandEnd)
  return { verb, name, args := skipSpaces (args.drop argsOffset) }

def lineCommand (line : Bytes) : Option Command := do
  let line := cString line
  let markerPos ← strstr Data.commandMarker line
  commandOf (line.drop (markerPos + Data.commandMarker.length))

def Data.startOf (data : Data) (p : Ptr) : Nat := (data.mm.node (.buf p)).start

def Data.printed (data : Data) (stdout stderr : Bytes) : Data := { data with stdout, stderr }

theorem eprint_eq (data : Data) (message : Bytes) :
    data.eprint message = data.printed data.stdout (data.stderr ++ message) := rfl

theorem lookup_map_snd {α β γ : Type} [BEq α] (f : β → γ) (x : α) (l : List (α × β)) :
    (l.map fun entry => (entry.1, f entry.2)).lookup x = (l.lookup x).map f := by
  induction l with
  | nil => rfl
  | cons entry l ih =>
      rw [List.map_cons, List.lookup_cons, List.lookup_cons]
      cases x == entry.1 with
      | true => rfl
      | false => exact ih

theorem commands_lookup (word : Bytes) :
    Data.commands.lookup word = (verbs.lookup word).map Verb.handler :=
  lookup_map_snd Verb.handler word verbs

section Line

variable (data : Data)

theorem processCommand_cases (command : Bytes) :
    (∃ c, commandOf command = some c ∧ data.processCommand command = data.execute c) ∨
      commandOf command = none ∧
        ∃ stdout stderr, data.processCommand command = .ok (data.printed stdout stderr) := by
  cases hend : strchr command 0x20 with
  | none =>
      right
      simp only [commandOf, Data.processCommand, hend]
      exact ⟨rfl, data.stdout, data.stderr, rfl⟩
  | some commandEnd =>
      cases haddress : scanHex32 (command.drop (commandEnd + 1)) with
      | none =>
          right
          simp only [commandOf, Data.processCommand, hend, haddress, eprint_eq]
          exact ⟨by simp [haddress], _, _, rfl⟩
      | some address =>
          cases hverb : verbs.lookup (command.take commandEnd) with
          | none =>
              right
              simp only [commandOf, Data.processCommand, hend, haddress, commands_lookup, hverb,
                eprint_eq]
              exact ⟨by simp [haddress, hverb], _, _, rfl⟩
          | some verb =>
              left
              simp only [commandOf, Data.processCommand, hend, haddress, commands_lookup, hverb]
              refine ⟨⟨verb, address.1, skipSpaces
                ((command.drop (commandEnd + 1)).drop address.2)⟩, ?_, rfl⟩
              simp [haddress, hverb]

/-- A line runs the handler of its command, or at most prints something. -/
theorem processLine_cases (line : Bytes) :
    (∃ c, lineCommand line = some c ∧ data.processLine line = data.execute c) ∨
      lineCommand line = none ∧
        ∃ stdout stderr, data.processLine line = .ok (data.printed stdout stderr) := by
  cases hmarker : strstr Data.commandMarker (cString line) with
  | some markerPos =>
      have hcommand : lineCommand line =
          commandOf ((cString line).drop (markerPos + Data.commandMarker.length)) := by
        simp [lineCommand, hmarker]
      have hrun : data.processLine line = data.processCommand
          ((cString line).drop (markerPos + Data.commandMarker.length)) := by
        simp only [Data.processLine, hmarker]
      rw [hcommand, hrun]
      exact processCommand_cases data _
  | none =>
      right
      refine ⟨by simp [lineCommand, hmarker], ?_⟩
      simp only [Data.processLine, hmarker]
      split
      · exact ⟨_, data.stderr, rfl⟩
      · exact ⟨data.stdout, data.stderr, rfl⟩

end Line

end CmaPool.TestDrm
