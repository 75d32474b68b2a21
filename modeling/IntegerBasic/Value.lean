import IntegerBasic.Error
import IntegerBasic.Text.Numeral

/-!
# Values and line numbers

The values of the language are the integers of 32 bits, and lines are numbered
by the natural numbers of 32 bits. Both are read from numerals and written in
decimal. Calculation is exact: the four operations are done on the integers and
fail when the result is no value. The main statements say what `ofInt?` accepts
and that reading a written number gives it back.
-/

namespace IntegerBasic

abbrev Value := Int32

namespace Value

/-- The value that is the integer `n`, when `n` fits 32 bits. -/
def ofInt? (n : Int) : Option Value :=
  if -2147483648 ≤ n ∧ n ≤ 2147483647 then some (Int32.ofInt n) else none

/-- An integer is a value exactly when it is the integer of that value. -/
theorem ofInt?_eq_some_iff {n : Int} {v : Value} : ofInt? n = some v ↔ v.toInt = n := by
  constructor
  · intro h
    simp only [ofInt?, Option.ite_none_right_eq_some, Option.some.injEq] at h
    obtain ⟨⟨h₁, h₂⟩, rfl⟩ := h
    exact Int32.toInt_ofInt_of_le (by omega) (by omega)
  · rintro rfl
    have h₁ := Int32.le_toInt v
    have h₂ := Int32.toInt_lt v
    rw [ofInt?, if_pos ⟨by omega, by omega⟩, Int32.ofInt_toInt]

theorem ofInt?_eq_none_iff {n : Int} :
    ofInt? n = none ↔ n < -2147483648 ∨ 2147483647 < n := by
  simp only [ofInt?, ite_eq_right_iff, reduceCtorEq, imp_false]
  omega

@[simp] theorem ofInt?_toInt (v : Value) : ofInt? v.toInt = some v :=
  ofInt?_eq_some_iff.2 rfl

def read? (cs : List Char) : Option Value :=
  (Text.signed? cs).bind ofInt?

def text (v : Value) : String :=
  v.toInt.repr

@[simp] theorem read?_text (v : Value) : read? v.text.toList = some v := by
  simp [read?, text]

end Value

abbrev LineNumber := UInt32

namespace LineNumber

/-- The line number that is the natural number `n`, when `n` fits 32 bits. -/
def ofNat? (n : Nat) : Option LineNumber :=
  if n < 4294967296 then some (UInt32.ofNat n) else none

theorem ofNat?_eq_some_iff {n : Nat} {l : LineNumber} : ofNat? n = some l ↔ l.toNat = n := by
  constructor
  · intro h
    simp only [ofNat?, Option.ite_none_right_eq_some, Option.some.injEq] at h
    obtain ⟨h, rfl⟩ := h
    exact UInt32.toNat_ofNat_of_lt h
  · rintro rfl
    rw [ofNat?, if_pos l.toNat_lt, UInt32.ofNat_toNat]

def read? (cs : List Char) : Option LineNumber :=
  (Text.unsigned? cs).bind ofNat?

def text (l : LineNumber) : String :=
  l.toNat.repr

@[simp] theorem read?_text (l : LineNumber) : read? l.text.toList = some l := by
  rw [read?, text, Text.unsigned?_repr]
  exact ofNat?_eq_some_iff.2 rfl

end LineNumber

inductive Operation
  | multiply
  | divide
  | add
  | subtract
  deriving DecidableEq, Repr

namespace Operation

def sign : Operation → String
  | .multiply => "*"
  | .divide => "/"
  | .add => "+"
  | .subtract => "-"

/-- The result among the integers; a quotient is cut off toward zero. -/
def exact : Operation → Int → Int → Int
  | .multiply, a, b => a * b
  | .divide, a, b => a.tdiv b
  | .add, a, b => a + b
  | .subtract, a, b => a - b

/-- The result as a value: a divisor must not be zero, and the exact result
must fit. -/
def apply (op : Operation) (a b : Value) : Except EvalFault Value :=
  if op = .divide ∧ b = 0 then
    .error .divisionByZero
  else
    match Value.ofInt? (op.exact a.toInt b.toInt) with
    | some v => .ok v
    | none => .error .overflow

end Operation

end IntegerBasic
