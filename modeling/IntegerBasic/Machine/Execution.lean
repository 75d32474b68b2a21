import IntegerBasic.Machine

/-!
# Execution

The machine works in steps. A step of a running program counts an attempt on the
current line and executes its statement; it ends with an event, or leaves the
machine ready for the next step. `run` takes steps until there is an event or the
cycles are used up, and `execute` delivers a queued message first.
-/

namespace IntegerBasic

namespace Machine

def inputPrompt : String := " ? "

def fail (m : Machine) (e : Error) : Option Event × Machine :=
  (some (.message (.error e)), m.stop)

def follow (m : Machine) (n : LineNumber) : Flow → Option Event × Machine
  | .next => (none, m.advance n)
  | .print t => (some (.message (.print t)), m.advance n)
  | .input x => (some (.input inputPrompt), { m with control := .awaiting x (some n) })
  | .jump target => (none, { m with control := .running target true })
  | .halt => (none, m.stop)

def perform (m : Machine) (n : LineNumber) (s : Statement) : Option Event × Machine :=
  match s.flow m.program m.vars with
  | .error e => m.fail e
  | .ok (flow, vars) => { m with vars := vars }.follow n flow

/-- Executes line `n`. A missing line is an error if a jump led to it; otherwise
the program has come to its end. -/
def stepAt (m : Machine) (n : LineNumber) (jumped : Bool) : Option Event × Machine :=
  match m.program.find? n with
  | none => if jumped then m.fail .missingLine else (none, m.stop)
  | some e =>
    match m.program.increment n with
    | (.error err, p) => { m with program := p }.fail err
    | (.ok (), p) => { m with program := p }.perform n e.statement

def step (m : Machine) : Option Event × Machine :=
  match m.control with
  | .stopped => (some .stopped, m)
  | .awaiting _ _ => (some (.input inputPrompt), m)
  | .running n jumped => m.stepAt n jumped

/-- Takes at most so many steps, up to the first event. -/
def run : Nat → Machine → Event × Machine
  | 0, m => (if m.control = .stopped then .stopped else .running, m)
  | cycles + 1, m =>
    match m.step with
    | (some e, m) => (e, m)
    | (none, m) => m.run cycles

/-- Delivers the oldest message, or else gives the machine so many cycles. -/
def execute (m : Machine) (cycles : Nat) : Event × Machine :=
  match m.queue with
  | msg :: rest => (.message msg, { m with queue := rest })
  | [] => m.run cycles

end Machine

end IntegerBasic
