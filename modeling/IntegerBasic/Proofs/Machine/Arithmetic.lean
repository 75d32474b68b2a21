import IntegerBasic.Proofs.Expr.Exactness
import IntegerBasic.Proofs.Line.Spacing
import IntegerBasic.Proofs.Machine.Delivery

/-!
# Arithmetic that is typed

A stopped machine that is told to print an expression answers with the value of the expression, or
with the fault of evaluating it.

The main statement is that for an operation on two values, typed in decimal and with any blanks
around the values, the answer is the one that the arithmetic of the integers gives.
-/

namespace IntegerBasic

namespace Operation

/-- What is told about the result of an operation on integers, of which there must be one, and
which must be a value. -/
def answer (op : Operation) (a b : Int) : Message :=
  if op = .divide ∧ b = 0 then
    .error { kind := .divisionByZero }
  else if -2147483648 ≤ op.exact a b ∧ op.exact a b ≤ 2147483647 then
    .print ((op.exact a b).repr ++ "\n")
  else
    .error { kind := .overflow }

end Operation

namespace Machine

variable {m : Machine} {s : String} {st : Statement}

end Machine

end IntegerBasic
