import IntegerBasic.CommandLine.Arguments
import IntegerBasic.Program.File
import IntegerBasic.Session

/-!
# The command line

The interpreter may be given a program file, which it loads, and told to run it at
once. Then it holds a session on its standard input and output, which are written
to as the session goes: the prompts, what is printed, and the messages of errors.
-/

namespace IntegerBasic

namespace CommandLine

structure Exit where
  code : Nat
  stdout : String
  stderr : String
  deriving DecidableEq, Repr

def versionText : String := "minibasic 0.3.0\n"

def usageText : String :=
  "A line-numbered integer BASIC interpreter\n\nUsage: basic [OPTIONS] [FILE]\n\n" ++
  "      --run             Run the loaded program immediately\n" ++
  "      --line-limit N    Execution count at which a single line stops the program\n" ++
  "  -h, --help            Print help\n" ++
  "  -V, --version         Print version\n"

/-- What is written when the console was made to do something: the history is
not kept. -/
def written : Entry → String
  | .read prompt => prompt
  | .print t => t
  | .error e => e.message ++ "\n"
  | .history _ => ""

/-- The console of a session on bytes that are typed. A line that is no text makes
reading fail. -/
def console (stdin : List UInt8) : Console where
  readings := (Text.typedLines stdin).map fun
    | some s => ⟨.line s, false⟩
    | none => ⟨.failure FileFault.notText.message, false⟩
  onPrint := fun _ => {}
  onError := fun _ => {}

def conclude (stdout : String) : Outcome → Exit
  | .exit code => ⟨code, stdout, ""⟩
  | .failed msg => ⟨1, stdout, msg ++ "\n"⟩

def converse (m : Machine) (stdin : List UInt8) : Exit :=
  let transcript := Session.run { machine := m, console := console stdin }
  conclude (String.join (transcript.log.map written)) transcript.outcome

/-- The machine that the options ask for, or what to complain about. -/
def start (o : Options) (content : String → Except PathFault (List UInt8)) :
    Except String Machine :=
  let limit := o.limit.getD Program.defaultLimit
  match o.file with
  | none => .ok (Machine.new limit)
  | some name =>
    match Program.ofFile limit (content name) with
    | .error f => .error (name ++ ": " ++ f.message ++ "\n")
    | .ok p =>
      let m := (Machine.new limit).setProgram p
      .ok (if o.run then (m.enter "RUN").2 else m)

/-- The whole run of the interpreter, with the arguments, the bytes that each path
leads to, and the bytes on the standard input. -/
def respond (args : List String) (content : String → Except PathFault (List UInt8))
    (stdin : List UInt8) : Exit :=
  match read {} args with
  | .error f => ⟨2, "", "error: " ++ f.message ++ "\n"⟩
  | .ok .version => ⟨0, versionText, ""⟩
  | .ok .help => ⟨0, usageText, ""⟩
  | .ok (.session o) =>
    match start o content with
    | .error complaint => ⟨1, "", complaint⟩
    | .ok m => converse m stdin

end CommandLine

end IntegerBasic
