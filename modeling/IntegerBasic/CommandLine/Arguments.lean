import IntegerBasic.Text.Numeral

/-!
# Arguments

The arguments of the interpreter are a program file and options, in any order.
They are taken from left to right, and the first fault is reported; a request for
the version or for help is granted when it is met. After `--` there are no more
options.
-/

namespace IntegerBasic

namespace CommandLine

structure Options where
  file : Option String := none
  run : Bool := false
  limit : Option UInt32 := none
  deriving DecidableEq, Repr

inductive UsageFault
  | unknownOption (argument : String)
  | repeatedOption (name : String)
  | missingValue (name : String)
  | badLimit (value : String)
  | emptyFile
  | secondFile (argument : String)
  | runWithoutFile
  deriving DecidableEq, Repr

def UsageFault.message : UsageFault → String
  | .unknownOption a => "unexpected argument " ++ a
  | .repeatedOption a => "the option " ++ a ++ " cannot be used twice"
  | .missingValue a => "a value is required for " ++ a
  | .badLimit v => "the line limit cannot be " ++ v
  | .emptyFile => "the name of the file is empty"
  | .secondFile a => "there is a file already, unexpected argument " ++ a
  | .runWithoutFile => "the option --run requires a file"

inductive Request
  | session (options : Options)
  | version
  | help
  deriving DecidableEq, Repr

namespace Options

def setFile (o : Options) (name : String) : Except UsageFault Options :=
  if o.file.isSome then .error (.secondFile name)
  else if name = "" then .error .emptyFile
  else .ok { o with file := some name }

/-- The limit that a signed numeral stands for, when it is in the range of
counts. -/
def limit? (value : String) : Option UInt32 :=
  match Text.signed? value.toList with
  | some n => if 0 ≤ n ∧ n < 4294967296 then some (UInt32.ofNat n.toNat) else none
  | none => none

def setLimit (o : Options) (value : String) : Except UsageFault Options :=
  if o.limit.isSome then .error (.repeatedOption "--line-limit")
  else
    match limit? value with
    | some limit => .ok { o with limit := some limit }
    | none => .error (.badLimit value)

def setRun (o : Options) : Except UsageFault Options :=
  if o.run then .error (.repeatedOption "--run") else .ok { o with run := true }

def finish (o : Options) : Except UsageFault Request :=
  if o.run && o.file.isNone then .error .runWithoutFile else .ok (.session o)

end Options

def readFiles (o : Options) : List String → Except UsageFault Request
  | [] => o.finish
  | arg :: rest =>
    match o.setFile arg with
    | .error f => .error f
    | .ok o => readFiles o rest

/-- What an argument is, other than one of the options by their full names. -/
inductive Argument
  | file (name : String)
  | limit (value : String)
  | version
  | help
  | unknown
  deriving DecidableEq, Repr

/-- Classifies an argument. A single minus sign is the name of a file; other
arguments that start with one are options. Of short options joined together the
first decides. -/
def classify (arg : String) : Argument :=
  match arg.toList with
  | '-' :: 'V' :: _ => .version
  | '-' :: 'h' :: _ => .help
  | '-' :: c :: _ =>
    if c = '-' ∧ "--line-limit=".toList.isPrefixOf arg.toList then
      .limit (String.ofList (arg.toList.drop "--line-limit=".toList.length))
    else
      .unknown
  | _ => .file arg

def read (o : Options) : List String → Except UsageFault Request
  | [] => o.finish
  | "--" :: rest => readFiles o rest
  | "--version" :: _ => .ok .version
  | "--help" :: _ => .ok .help
  | "--run" :: rest =>
    match o.setRun with
    | .error f => .error f
    | .ok o => read o rest
  | ["--line-limit"] => .error (.missingValue "--line-limit")
  | "--line-limit" :: value :: rest =>
    if value.toList.head? = some '-' then
      .error (.missingValue "--line-limit")
    else
      match o.setLimit value with
      | .error f => .error f
      | .ok o => read o rest
  | arg :: rest =>
    match classify arg with
    | .version => .ok .version
    | .help => .ok .help
    | .unknown => .error (.unknownOption arg)
    | .limit value =>
      match o.setLimit value with
      | .error f => .error f
      | .ok o => read o rest
    | .file name =>
      match o.setFile name with
      | .error f => .error f
      | .ok o => read o rest

end CommandLine

end IntegerBasic
