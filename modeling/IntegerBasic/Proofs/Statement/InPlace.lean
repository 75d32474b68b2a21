import IntegerBasic.Proofs.Program.InPlace
import IntegerBasic.Statement.Execution

/-!
# Statements executed in place

Executing a statement as an action on the variables, which it changes as it goes along. The main
statement says that the action does what the function says, and has not changed a variable when it
fails.
-/

namespace IntegerBasic

namespace Expr

def evalInPlace (e : Expr) : EStateM Error Variables Value := do
  match e.eval (← get) with
  | .error f => throw f.toError
  | .ok v => pure v

theorem run_evalInPlace (e : Expr) (vars : Variables) :
    e.evalInPlace.run vars =
      match e.eval vars with
      | .error f => .error f.toError vars
      | .ok v => .ok v vars := by
  rw [evalInPlace, EStateM.run_bind, EStateM.run_get]
  dsimp only
  split <;> rfl

end Expr

namespace Statement

def conditionInPlace : Statement → EStateM Error Variables Bool
  | .branch l rel r _ => do
    let a ← l.evalInPlace
    let b ← r.evalInPlace
    pure (rel.holds a b)
  | _ => pure false

/-- A missing target ends the action. -/
def checkInPlace (p : Program) (n : LineNumber) : EStateM Error Variables Unit :=
  if p.contains n then pure () else throw .missingLine

def executeInPlace (p : Program) : Statement → EStateM Error Variables Flow
  | .assign x e => do
    let v ← e.evalInPlace
    modify fun vars => vars.store x v
    pure .next
  | .print e => do
    let v ← e.evalInPlace
    pure (.print (v.text ++ "\n"))
  | .input x => pure (.input x)
  | .remark _ => pure .next
  | .goto n => do
    checkInPlace p n
    pure (.jump n)
  | .branch l rel r n => do
    checkInPlace p n
    if ← (Statement.branch l rel r n).conditionInPlace then
      pure (.jump n)
    else
      pure .next
  | .halt => pure .halt

variable (p : Program) (vars : Variables) (s : Statement)

theorem run_checkInPlace (n : LineNumber) :
    (checkInPlace p n).run vars =
      if p.contains n then .ok () vars else .error .missingLine vars := by
  rw [checkInPlace]
  split <;> rfl

theorem run_conditionInPlace :
    s.conditionInPlace.run vars =
      match s.condition vars with
      | .error f => .error f.toError vars
      | .ok b => .ok b vars := by
  cases s with
  | branch l rel r n =>
      rw [conditionInPlace, EStateM.run_bind, Expr.run_evalInPlace, condition]
      cases l.eval vars with
      | error f => rfl
      | ok a =>
          dsimp only
          rw [EStateM.run_bind, Expr.run_evalInPlace]
          cases r.eval vars <;> rfl
  | assign | print | input | remark | goto | halt => rfl

/-- A statement that is executed in place fails before it changes a variable. -/
theorem run_executeInPlace :
    (s.executeInPlace p).run vars = settled vars (s.execute p vars) := by
  cases s with
  | input | remark | halt => rfl
  | assign x e =>
      rw [executeInPlace, EStateM.run_bind, Expr.run_evalInPlace, execute]
      cases e.eval vars <;> rfl
  | print e =>
      rw [executeInPlace, EStateM.run_bind, Expr.run_evalInPlace, execute]
      cases e.eval vars <;> rfl
  | goto n =>
      rw [executeInPlace, EStateM.run_bind, run_checkInPlace, execute]
      by_cases hn : p.contains n = true
      · rw [if_pos hn, if_pos hn]
        rfl
      · rw [if_neg hn, if_neg hn]
        rfl
  | branch l rel r n =>
      rw [executeInPlace, EStateM.run_bind, run_checkInPlace, execute]
      by_cases hn : p.contains n = true
      · rw [if_pos hn, if_pos hn]
        dsimp only
        rw [EStateM.run_bind, run_conditionInPlace]
        rcases condition vars (.branch l rel r n) with f | _ | _ <;> rfl
      · rw [if_neg hn, if_neg hn]
        rfl

end Statement

end IntegerBasic
