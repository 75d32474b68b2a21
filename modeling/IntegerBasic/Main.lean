import IntegerBasic.CommandLine

/-!
# The program

The program holds its session turn by turn: a line is read from the standard input
when the session asks for one, and what a turn writes is written at once.
-/

namespace IntegerBasic

/-- The bytes that a path leads to in the file system. A directory opens but cannot
be read, so that its fault names no file; a path that goes on after a file does not
open. -/
def contentOf (path : String) : IO (Except PathFault (List UInt8)) := do
  try
    let bytes ← IO.FS.readBinFile path
    return .ok bytes.toList
  catch
    | .noFileOrDirectory .. => return .error .absent
    | .inappropriateType none .. => return .error .directory
    | .inappropriateType (some _) .. => return .error .beyondFile
    | .invalidArgument (some _) .. => return .error .nameTooLong
    | e => throw e

def write (stream : IO.FS.Stream) (text : String) : IO Unit := do
  stream.putStr text
  stream.flush

/-- The bytes of a line, after those that were read already, with its line feed; at
the end of the input there may be none. -/
partial def readLine (stream : IO.FS.Stream) (sofar : ByteArray) : IO (List UInt8) := do
  match (← stream.read 1).toList with
  | [] => return sofar.toList
  | b :: _ =>
    if b = Text.lineFeed then return (sofar.push b).toList
    else readLine stream (sofar.push b)

/-- Writes what is left to write, and gives the exit code. -/
def leave (exit : CommandLine.Exit) : IO UInt32 := do
  write (← IO.getStdout) exit.stdout
  write (← IO.getStderr) exit.stderr
  return UInt32.ofNat exit.code

/-- Holds a session, beginning with a turn of the machine. The prompt of a line is
written before the line is read. -/
partial def hold (m : Machine) : IO UInt32 := do
  let (event, m) := m.execute Session.cycles
  let typed ← match event.prompt? with
    | some prompt => do
      write (← IO.getStdout) prompt
      readLine (← IO.getStdin) ByteArray.empty
    | none => pure []
  let shown (entries : List Entry) : String :=
    String.join ((entries.filter fun e => !e.isRead).map CommandLine.written)
  match Session.handle ⟨m, CommandLine.console typed, false⟩ event with
  | .done entries outcome _ => leave (CommandLine.conclude (shown entries) outcome)
  | .next entries s => do
    write (← IO.getStdout) (shown entries)
    hold s.machine

/-- Does what the arguments ask for. -/
def serve (args : List String) : IO UInt32 := do
  match CommandLine.read {} args with
  | .ok (.session o) =>
    let content ← match o.file with
      | some name => contentOf name
      | none => pure (.error .absent)
    match CommandLine.start o fun _ => content with
    | .ok m => hold m
    | .error complaint => leave ⟨1, "", complaint⟩
  | _ => leave (CommandLine.respond args (fun _ => .error .absent) [])

end IntegerBasic

def main (args : List String) : IO UInt32 :=
  IntegerBasic.serve args
