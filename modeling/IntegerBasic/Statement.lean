import IntegerBasic.Expr

/-!
# Statements

The statements of the language and how they are written. A statement is written
so that reading its text gives the statement again, as far as the nesting of its
expressions allows.
-/

namespace IntegerBasic

inductive Relation
  | less
  | equal
  | greater
  deriving DecidableEq, Repr

namespace Relation

def sign : Relation → String
  | .less => "<"
  | .equal => "="
  | .greater => ">"

def holds : Relation → Value → Value → Bool
  | .less, a, b => a < b
  | .equal, a, b => a = b
  | .greater, a, b => b < a

end Relation

inductive Statement
  /-- `LET` stores the value of an expression. -/
  | assign (name : String) (value : Expr)
  /-- `PRINT` writes the value of an expression. -/
  | print (value : Expr)
  /-- `INPUT` asks for the value of a variable. -/
  | input (name : String)
  /-- `REM` does nothing. -/
  | remark (text : String)
  /-- `GOTO` continues at a line. -/
  | goto (target : LineNumber)
  /-- `IF` continues at a line if a relation holds. -/
  | branch (left : Expr) (relation : Relation) (right : Expr) (target : LineNumber)
  /-- `END` stops the program. -/
  | halt
  deriving DecidableEq, Repr

namespace Statement

def text : Statement → String
  | .assign x e => "LET " ++ x ++ " = " ++ e.text
  | .print e => "PRINT " ++ e.text
  | .input x => "INPUT " ++ x
  | .remark s => "REM" ++ s
  | .goto n => "GOTO " ++ n.text
  | .branch l rel r n =>
    "IF " ++ l.text ++ " " ++ rel.sign ++ " " ++ r.text ++ " THEN " ++ n.text
  | .halt => "END"

def target? : Statement → Option LineNumber
  | .goto n => some n
  | .branch _ _ _ n => some n
  | _ => none

end Statement

end IntegerBasic
