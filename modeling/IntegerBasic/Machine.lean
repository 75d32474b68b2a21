import IntegerBasic.Statement.Execution

/-!
# The machine

The machine holds a program and variables and takes lines that are typed. It is
stopped, or it runs the program, or it awaits the value of a variable. What it
has to tell is queued as messages and delivered one by one, oldest first, before
the program goes on.

A line answers the question, if one is open. Otherwise a numbered line is put
into the program, or removed from it if it is bare, and a direct line is obeyed.
-/

namespace IntegerBasic

inductive Message
  | print (text : String)
  | list (text : String)
  | error (error : Error)
  /-- The session is to end. -/
  | quit
  deriving DecidableEq, Repr

inductive Event
  /-- It waits for a line. -/
  | stopped
  /-- The cycles were used up; it can go on. -/
  | running
  /-- It waits for a value, for which it asks with a prompt. -/
  | input (prompt : String)
  | message (message : Message)
  deriving DecidableEq, Repr

inductive Control
  | stopped
  /-- Execute a line; a jump may have led to it. -/
  | running (line : LineNumber) (jumped : Bool)
  /-- Await a value for a variable, on behalf of a line of the program or of a
  direct line. -/
  | awaiting (name : String) (line : Option LineNumber)
  deriving DecidableEq, Repr

structure Machine where
  program : Program
  vars : Variables
  control : Control
  queue : List Message
  deriving DecidableEq, Repr

namespace Machine

def new (limit : UInt32) : Machine where
  program := .empty limit
  vars := .empty
  control := .stopped
  queue := []

def isRunning (m : Machine) : Bool :=
  match m.control with
  | .running _ _ => true
  | _ => false

def post (m : Machine) (msg : Message) : Machine :=
  { m with queue := m.queue ++ [msg] }

def stop (m : Machine) : Machine :=
  { m with control := .stopped }

/-- Goes on with the line after a line, or stops if there is none. -/
def advance (m : Machine) (n : LineNumber) : Machine :=
  match m.program.next? n with
  | some n => { m with control := .running n false }
  | none => m.stop

/-- Replaces the program; whatever was going on is stopped. -/
def setProgram (m : Machine) (p : Program) : Machine :=
  { m with program := p, control := .stopped }

/-- Interrupts the program or the question; nothing happens if there is
neither. -/
def interrupt (m : Machine) : Machine :=
  match m.control with
  | .stopped => m
  | _ => m.stop.post (.error .interrupt)

def answer (m : Machine) (x : String) (line : Option LineNumber) (s : String) : Machine :=
  match Value.ofAnswer? s with
  | none => m.post (.print "INVALID NUMBER\n")
  | some v =>
    let m := { m with vars := m.vars.store x v }
    match line with
    | some n => m.advance n
    | none => m.stop

def obey (m : Machine) : Command → Machine
  | .run =>
    let m := { m with program := m.program.resetCounts }
    match m.program.first? with
    | some n => { m with control := .running n false }
    | none => m
  | .list => { m with queue := m.queue ++ m.program.lines.map fun e => .list e.line.text }
  | .clear => { m with program := m.program.clear, vars := .empty }
  | .quit => m.post .quit

/-- Executes a direct statement. Some statements make sense in a program only;
`END` ends the session. -/
def executeDirect (m : Machine) (s : Statement) : Machine :=
  match s with
  | .halt => m.post .quit
  | .remark _ | .goto _ | .branch _ _ _ _ =>
    m.post (.error SyntaxFault.illegalDirect.toError)
  | .assign _ _ | .print _ | .input _ =>
    match s.execute m.program m.vars with
    | .error e => m.post (.error e)
    | .ok (flow, vars) =>
      let m := { m with vars := vars }
      match flow with
      | .print t => m.post (.print t)
      | .input x => { m with control := .awaiting x none }
      | .next | .jump _ | .halt => m

def enterDirect (m : Machine) (l : Line) : Machine :=
  match l.command? with
  | some c => m.obey c
  | none =>
    match l.statement with
    | .error f => m.post (.error f.toError)
    | .ok s => m.executeDirect s

def enterNumbered (m : Machine) (l : Line) : Machine :=
  match m.program.insert l with
  | .error e => m.post (.error e)
  | .ok (_, p) => { m with program := p }

/-- Takes a line while no question is open, and tells whether the line is worth
keeping: it fits the line buffer and is not empty. -/
def enterLine (m : Machine) (s : String) : Bool × Machine :=
  if Line.fits s then
    let l := Line.ofText s
    if l.isEmpty then
      match l.number with
      | some n => (true, { m with program := m.program.erase n })
      | none => (false, m)
    else if l.isDirect then
      (true, m.enterDirect l)
    else
      (true, m.enterNumbered l)
  else
    (false, m.post (.error .lineTooLong))

/-- Takes a line that is typed, and tells whether it is worth keeping; an answer
to a question is not. -/
def enter (m : Machine) (s : String) : Bool × Machine :=
  match m.control with
  | .awaiting x line => (false, m.answer x line s)
  | _ => m.enterLine s

end Machine

end IntegerBasic
