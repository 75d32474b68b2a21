import IntegerBasic.Expr.Evaluation
import IntegerBasic.Program
import IntegerBasic.Text.Blank

/-!
# Executing statements

Executing a statement may change the variables, and asks something of whoever
executes it: to go on, to write a text, to get a value, to jump, or to stop.
`execute` is for a statement on its own: it jumps to stored lines only. `flow` is
for a statement of a running program, where a jump is taken at once and a missing
line shows when it is to be executed.
-/

namespace IntegerBasic

/-- What a statement asks for after its execution. -/
inductive Flow
  /-- Go on with the following line. -/
  | next
  /-- Write a text, and go on with the following line. -/
  | print (text : String)
  /-- Get a value for a variable, and go on with the following line. -/
  | input (name : String)
  /-- Go on with another line. -/
  | jump (target : LineNumber)
  /-- Stop the program. -/
  | halt
  deriving DecidableEq, Repr

/-- The value that a text answers to a question for one: white space, and then a
signed numeral that ends the text. -/
def Value.ofAnswer? (s : String) : Option Value :=
  Value.read? (Text.trimStart s.toList)

namespace Statement

/-- Whether the condition of the statement holds. The left side is evaluated
first; a statement without a condition counts as false. -/
def condition (vars : Variables) : Statement → Except EvalFault Bool
  | .branch l rel r _ =>
    match l.eval vars with
    | .error f => .error f
    | .ok a =>
      match r.eval vars with
      | .error f => .error f
      | .ok b => .ok (rel.holds a b)
  | _ => .ok false

/-- Executes a statement on its own. The target of a jump is looked up first,
whether the jump is taken or not. -/
def execute (p : Program) (vars : Variables) : Statement → Except Error (Flow × Variables)
  | .assign x e =>
    match e.eval vars with
    | .error f => .error f.toError
    | .ok v => .ok (.next, vars.store x v)
  | .print e =>
    match e.eval vars with
    | .error f => .error f.toError
    | .ok v => .ok (.print (v.text ++ "\n"), vars)
  | .input x => .ok (.input x, vars)
  | .remark _ => .ok (.next, vars)
  | .goto n =>
    if p.contains n then .ok (.jump n, vars) else .error .missingLine
  | .branch l rel r n =>
    if p.contains n then
      match (Statement.branch l rel r n).condition vars with
      | .error f => .error f.toError
      | .ok true => .ok (.jump n, vars)
      | .ok false => .ok (.next, vars)
    else
      .error .missingLine
  | .halt => .ok (.halt, vars)

/-- Executes a statement of a running program; jumps are not looked up. -/
def flow (p : Program) (vars : Variables) (s : Statement) : Except Error (Flow × Variables) :=
  match s with
  | .goto n => .ok (.jump n, vars)
  | .branch _ _ _ n =>
    match s.condition vars with
    | .error f => .error f.toError
    | .ok true => .ok (.jump n, vars)
    | .ok false => .ok (.next, vars)
  | .assign _ _ | .print _ | .input _ | .remark _ | .halt => s.execute p vars

end Statement

end IntegerBasic
