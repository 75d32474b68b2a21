import IntegerBasic.Expr
import IntegerBasic.Token

/-!
# Reading expressions

An expression is a sum of products of factors; both chains group to the left. A
factor is a variable, a number, an expression in parentheses, or a minus sign
and another factor, which stands for the difference from zero. A minus sign
directly before a number belongs to that number. Parentheses and minus signs may
nest, each level counting once, `maxNesting` levels deep.

A reading consumes at least one token, and says so in its type: the tokens that
are left over are fewer than the ones it was given. The chains of operands end
for that reason.
-/

namespace IntegerBasic

namespace Expr

/-- An expression read from the front of `ts`, with the tokens after it. -/
structure Reading (ts : List Token) where
  expr : Expr
  rest : List Token
  shorter : rest.length < ts.length

abbrev Reader : Type :=
  (ts : List Token) → Except SyntaxFault (Reading ts)

def additive? : Operator → Option Operation
  | .plus => some .add
  | .minus => some .subtract
  | _ => none

def multiplicative? : Operator → Option Operation
  | .multiply => some .multiply
  | .divide => some .divide
  | _ => none

/-- Continues a chain of operands for as long as an operator that joins them
follows; what was read so far is the left operand of the next operation. -/
def extend (join? : Operator → Option Operation) (operand : Reader) {ts : List Token}
    (sofar : Reading ts) : Except SyntaxFault (Reading ts) :=
  match h : sofar.rest with
  | .operator o :: us =>
    match join? o with
    | none => .ok sofar
    | some op =>
      match operand us with
      | .error f => .error f
      | .ok next =>
        extend join? operand
          { expr := .binary op sofar.expr next.expr
            rest := next.rest
            shorter := by
              have h₁ := sofar.shorter
              have h₂ := next.shorter
              rw [h, List.length_cons] at h₁
              omega }
  | _ => .ok sofar
termination_by sofar.rest.length
decreasing_by
  have h₂ := next.shorter
  rw [h, List.length_cons]
  omega

def leftChain (join? : Operator → Option Operation) (operand : Reader) : Reader :=
  fun ts =>
    match operand ts with
    | .error f => .error f
    | .ok first => extend join? operand first

def sum (factor : Reader) : Reader :=
  leftChain additive? (leftChain multiplicative? factor)

def number? (cs : List Char) : Except SyntaxFault Expr :=
  match Value.read? cs with
  | some v => .ok (.int v)
  | none => .error .integerTooLarge

/-- Reads a factor for which so many levels of nesting are left. -/
def factor : Nat → Reader
  | 0, _ => .error .expressionTooComplex
  | _ + 1, .ident x :: rest => .ok ⟨.var x, rest, Nat.lt_succ_self _⟩
  | _ + 1, .literal d :: rest =>
    match number? d.toList with
    | .error f => .error f
    | .ok e => .ok ⟨e, rest, Nat.lt_succ_self _⟩
  | _ + 1, .operator .minus :: .literal d :: rest =>
    match number? ('-' :: d.toList) with
    | .error f => .error f
    | .ok e => .ok ⟨e, rest, Nat.lt_succ_of_lt (Nat.lt_succ_self _)⟩
  | level + 1, .operator .minus :: us =>
    match factor level us with
    | .error f => .error f
    | .ok operand =>
      .ok
        { expr := .binary .subtract (.int 0) operand.expr
          rest := operand.rest
          shorter := by
            have h := operand.shorter
            rw [List.length_cons]
            omega }
  | level + 1, .leftParen :: us =>
    match sum (factor level) us with
    | .error f => .error f
    | .ok inner =>
      match h : inner.rest with
      | .rightParen :: rest =>
        .ok
          { expr := inner.expr
            rest := rest
            shorter := by
              have h₁ := inner.shorter
              rw [h, List.length_cons] at h₁
              rw [List.length_cons]
              omega }
      | _ => .error .expectedRightParenthesis
  | _ + 1, _ => .error .expectedExpression

def maxNesting : Nat := 64

def read : Reader :=
  sum (factor maxNesting)

@[simp] theorem factor_zero (ts : List Token) :
    factor 0 ts = .error .expressionTooComplex := by
  rw [factor]

end Expr

end IntegerBasic
