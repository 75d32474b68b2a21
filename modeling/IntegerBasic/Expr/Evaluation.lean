import IntegerBasic.Expr
import IntegerBasic.Variables

/-!
# Evaluating expressions

An expression is evaluated from left to right; the first fault is the outcome.
-/

namespace IntegerBasic

namespace Expr

def eval (vars : Variables) : Expr → Except EvalFault Value
  | .int v => .ok v
  | .var x => vars.fetch x
  | .binary op l r =>
    match l.eval vars with
    | .error f => .error f
    | .ok a =>
      match r.eval vars with
      | .error f => .error f
      | .ok b => op.apply a b

theorem eval_binary_eq_ok_iff {vars : Variables} {op : Operation} {l r : Expr} {v : Value} :
    (Expr.binary op l r).eval vars = .ok v ↔
      ∃ a b, l.eval vars = .ok a ∧ r.eval vars = .ok b ∧ op.apply a b = .ok v := by
  rw [eval]
  cases l.eval vars with
  | error f => simp
  | ok a => cases r.eval vars <;> simp

end Expr

end IntegerBasic
