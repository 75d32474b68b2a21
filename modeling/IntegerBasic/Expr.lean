import IntegerBasic.Value

/-!
# Expressions

An expression is a value, a variable, or one of the four operations applied to
two expressions. It is written with a pair of parentheses around every
operation, so that its text shows its shape.
-/

namespace IntegerBasic

inductive Expr
  | int (value : Value)
  | var (name : String)
  | binary (op : Operation) (left right : Expr)
  deriving DecidableEq, Repr

namespace Expr

def text : Expr → String
  | .int v => v.text
  | .var x => x
  | .binary op l r => "(" ++ l.text ++ " " ++ op.sign ++ " " ++ r.text ++ ")"

/-- The number of levels of an expression; a value or a variable has one. -/
def height : Expr → Nat
  | .int _ => 1
  | .var _ => 1
  | .binary _ l r => max l.height r.height + 1

theorem height_pos (e : Expr) : 0 < e.height := by
  cases e <;> simp [height]

end Expr

end IntegerBasic
