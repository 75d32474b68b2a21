/-!
# Errors

Everything that can go wrong is an `Error`: a kind, which decides the message
that the user sees, and a detail, which only the full text shows. Faults of
reading a line and faults of calculating are smaller types of their own, so
that a function whose only way to fail is one of them says so in its type; both
embed into `Error`.
-/

namespace IntegerBasic

inductive ErrorKind
  | syntaxError
  | lineNumberError
  | undefinedVariable
  | divisionByZero
  | overflow
  | executionLimit
  | interrupted
  | directStatementInFile
  | lineBufferOverflow
  deriving DecidableEq, Repr

def ErrorKind.message : ErrorKind → String
  | .syntaxError => "SYNTAX ERROR"
  | .lineNumberError => "LINE NUMBER ERROR"
  | .undefinedVariable => "VARIABLE NOT DEFINED"
  | .divisionByZero => "DIVIDE BY ZERO"
  | .overflow => "OVERFLOW"
  | .executionLimit => "EXECUTION LIMIT EXCEEDED"
  | .interrupted => "BREAK"
  | .directStatementInFile => "DIRECT STATEMENT IN FILE"
  | .lineBufferOverflow => "LINE BUFFER OVERFLOW"

structure Error where
  kind : ErrorKind
  detail : String := ""
  deriving DecidableEq, Repr

namespace Error

/-- What the user is shown; the detail is left out. -/
def message (e : Error) : String :=
  e.kind.message

def fullText (e : Error) : String :=
  if e.detail = "" then
    "Error \x7b " ++ e.message ++ " \x7d"
  else
    "Error \x7b " ++ e.message ++ "; " ++ e.detail ++ " \x7d"

/-- Two errors count as the same when their kinds agree; details only explain. -/
def same (e f : Error) : Bool :=
  e.kind = f.kind

def isFatal (e : Error) : Bool :=
  e.kind = .executionLimit

def isEvaluation (e : Error) : Bool :=
  e.kind = .undefinedVariable || e.kind = .divisionByZero || e.kind = .overflow

def missingLine : Error where
  kind := .lineNumberError

def numberZero : Error where
  kind := .lineNumberError
  detail := "LINE NUMBERS START AT 1"

def limitReached : Error where
  kind := .executionLimit

def interrupt : Error where
  kind := .interrupted

def directInFile : Error where
  kind := .directStatementInFile

def lineTooLong : Error where
  kind := .lineBufferOverflow

end Error

inductive SyntaxFault
  | expectedStatement
  | expectedReservedWord
  | expectedExpression
  | expressionTooComplex
  | integerTooLarge
  | expectedIdentifier
  | expectedOperator
  | expectedRightParenthesis
  | expectedRelationalOperator
  | expectedLineNumber
  | invalidLineNumber
  | unexpectedToken
  | illegalDirect
  deriving DecidableEq, Repr

namespace SyntaxFault

def detail : SyntaxFault → String
  | .expectedStatement => "EXPECTED STATEMENT"
  | .expectedReservedWord => "EXPECTED RESERVED WORD"
  | .expectedExpression => "EXPECTED EXPRESSION"
  | .expressionTooComplex => "EXPRESSION TOO COMPLEX"
  | .integerTooLarge => "INTEGER TOO LARGE"
  | .expectedIdentifier => "EXPECTED IDENTIFIER"
  | .expectedOperator => "EXPECTED OPERATOR"
  | .expectedRightParenthesis => "EXPECTED RIGHT PARENTHESIS"
  | .expectedRelationalOperator => "EXPECTED RELATIONAL OPERATOR"
  | .expectedLineNumber => "EXPECTED LINE NUMBER"
  | .invalidLineNumber => "INVALID LINE NUMBER"
  | .unexpectedToken => "UNEXPECTED TOKEN"
  | .illegalDirect => "ILLEGAL DIRECT"

def toError (f : SyntaxFault) : Error where
  kind := .syntaxError
  detail := f.detail

@[simp] theorem kind_toError (f : SyntaxFault) : f.toError.kind = .syntaxError := rfl

end SyntaxFault

inductive EvalFault
  | undefinedVariable
  | divisionByZero
  | overflow
  deriving DecidableEq, Repr

namespace EvalFault

def kind : EvalFault → ErrorKind
  | .undefinedVariable => .undefinedVariable
  | .divisionByZero => .divisionByZero
  | .overflow => .overflow

def toError (f : EvalFault) : Error where
  kind := f.kind

/-- The faults of calculating are what `Error.isEvaluation` recognises. -/
theorem isEvaluation_iff (e : Error) :
    e.isEvaluation = true ↔ ∃ f : EvalFault, f.kind = e.kind := by
  constructor
  · intro h
    simp only [Error.isEvaluation, Bool.or_eq_true, decide_eq_true_eq] at h
    rcases h with (h | h) | h
    · exact ⟨.undefinedVariable, h.symm⟩
    · exact ⟨.divisionByZero, h.symm⟩
    · exact ⟨.overflow, h.symm⟩
  · rintro ⟨f, h⟩
    cases f <;> simp [Error.isEvaluation, ← h, kind]

end EvalFault

end IntegerBasic
