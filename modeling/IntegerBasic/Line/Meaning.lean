import IntegerBasic.Line
import IntegerBasic.Statement.Parser

/-!
# What a line says

A line says a statement, or, if it is direct and holds nothing but one of four
reserved words, a command. Commands are obeyed and never stored.
-/

namespace IntegerBasic

/-- The commands, which only a direct line can give. -/
inductive Command
  | run
  | list
  | clear
  | quit
  deriving DecidableEq, Repr

namespace Command

/-- The command that a list of tokens is: a single reserved word, with blanks
allowed around it. -/
def ofTokens? (ts : List Token) : Option Command :=
  match Token.significant ts with
  | [.word .RUN] => some .run
  | [.word .LIST] => some .list
  | [.word .CLEAR] => some .clear
  | [.word .QUIT] => some .quit
  | _ => none

end Command

namespace Line

def statement (l : Line) : Except SyntaxFault Statement :=
  Statement.ofTokens l.tokens

def command? (l : Line) : Option Command :=
  if l.isDirect then Command.ofTokens? l.tokens else none

def bufferSize : Nat := 1024

def fits (s : String) : Bool :=
  s.utf8ByteSize ≤ bufferSize

theorem tokens_ne_nil_of_statement {l : Line} {st : Statement} (h : l.statement = .ok st) :
    l.tokens ≠ [] := by
  intro hnil
  rw [statement, hnil] at h
  cases h

end Line

end IntegerBasic
