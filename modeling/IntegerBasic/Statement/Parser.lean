import IntegerBasic.Expr.Parser
import IntegerBasic.Statement

/-!
# Reading statements

A statement is a reserved word and what belongs to it; blanks between tokens do
not count, except in a remark, which keeps everything after its word. Whatever
is left after a statement makes the line wrong. A fault is reported where
reading from left to right first meets it.
-/

namespace IntegerBasic

namespace Token

/-- The tokens that are no blanks. -/
def significant (ts : List Token) : List Token :=
  ts.filter fun t => !t.isBlanks

end Token

namespace Statement

def readName : List Token → Except SyntaxFault (String × List Token)
  | .ident x :: ts => .ok (x, ts)
  | _ => .error .expectedIdentifier

def readEqual : List Token → Except SyntaxFault (List Token)
  | .operator .equal :: ts => .ok ts
  | _ => .error .expectedOperator

def readThen : List Token → Except SyntaxFault (List Token)
  | .word .THEN :: ts => .ok ts
  | _ => .error .expectedReservedWord

def readRelation : List Token → Except SyntaxFault (Relation × List Token)
  | .operator .less :: ts => .ok (.less, ts)
  | .operator .equal :: ts => .ok (.equal, ts)
  | .operator .greater :: ts => .ok (.greater, ts)
  | _ => .error .expectedRelationalOperator

def readTarget : List Token → Except SyntaxFault (LineNumber × List Token)
  | .literal d :: ts =>
    match LineNumber.read? d.toList with
    | some n => .ok (n, ts)
    | none => .error .invalidLineNumber
  | _ => .error .expectedLineNumber

/-- Reads what follows the word of a statement other than a remark, and gives
the tokens after the statement. -/
def readAfter (ts : List Token) : ReservedWord → Except SyntaxFault (Statement × List Token)
  | .LET => do
    let (x, ts) ← readName ts
    let ts ← readEqual ts
    let e ← Expr.read ts
    return (.assign x e.expr, e.rest)
  | .PRINT => do
    let e ← Expr.read ts
    return (.print e.expr, e.rest)
  | .INPUT => do
    let (x, ts) ← readName ts
    return (.input x, ts)
  | .GOTO => do
    let (n, ts) ← readTarget ts
    return (.goto n, ts)
  | .IF => do
    let l ← Expr.read ts
    let (rel, ts) ← readRelation l.rest
    let r ← Expr.read ts
    let ts ← readThen r.rest
    let (n, ts) ← readTarget ts
    return (.branch l.expr rel r.expr n, ts)
  | .END => .ok (.halt, ts)
  | .REM | .THEN | .RUN | .LIST | .CLEAR | .QUIT => .error .expectedStatement

def complete : Statement × List Token → Except SyntaxFault Statement
  | (s, []) => .ok s
  | _ => .error .unexpectedToken

def ofTokens (ts : List Token) : Except SyntaxFault Statement :=
  match ts.dropWhile Token.isBlanks with
  | [] => .error .expectedStatement
  | .word .REM :: rest => .ok (.remark (Token.textOf rest))
  | .word w :: rest => do
    let read ← readAfter (Token.significant rest) w
    complete read
  | _ => .error .expectedReservedWord

end Statement

end IntegerBasic
