import IntegerBasic.Value

/-!
# Variables

The variables of a session are a finite map from names to values. Names are
compared letter by letter, so `x` and `X` are two variables. A variable that was
never stored has no value. The main statement describes storing by what is
fetched afterwards.
-/

namespace IntegerBasic

/-- The variables that have a value, each name once. -/
structure Variables where
  bindings : List (String × Value)
  distinct : bindings.Pairwise fun a b => a.1 ≠ b.1
  deriving DecidableEq, Repr

namespace Variables

def empty : Variables where
  bindings := []
  distinct := List.Pairwise.nil

def fetch? (vars : Variables) (x : String) : Option Value :=
  (vars.bindings.find? fun b => b.1 = x).map Prod.snd

def fetch (vars : Variables) (x : String) : Except EvalFault Value :=
  match vars.fetch? x with
  | some v => .ok v
  | none => .error .undefinedVariable

/-- Gives a variable a value, in place of the one it may have had. -/
def store (vars : Variables) (x : String) (v : Value) : Variables where
  bindings := (x, v) :: vars.bindings.filter fun b => b.1 ≠ x
  distinct := by
    refine List.Pairwise.cons ?_ (vars.distinct.filter _)
    intro b hb
    exact fun h => of_decide_eq_true (List.mem_filter.1 hb).2 h.symm

def size (vars : Variables) : Nat :=
  vars.bindings.length

@[simp] theorem fetch?_empty (x : String) : empty.fetch? x = none := rfl

@[simp] theorem size_empty : empty.size = 0 := rfl

/-- Storing changes the variable it names and no other. -/
theorem fetch?_store (vars : Variables) (x y : String) (v : Value) :
    (vars.store x v).fetch? y = if y = x then some v else vars.fetch? y := by
  unfold fetch? store
  by_cases h : y = x
  · simp [h]
  · have h' : x ≠ y := fun h' => h h'.symm
    rw [if_neg h, List.find?_cons_of_neg (by simpa using h'), List.find?_filter]
    congr 2
    funext b
    by_cases hb : b.1 = y
    · simp [hb, h]
    · simp [hb]

@[simp] theorem fetch?_store_self (vars : Variables) (x : String) (v : Value) :
    (vars.store x v).fetch? x = some v := by
  rw [fetch?_store, if_pos rfl]

theorem fetch_eq_ok_iff {vars : Variables} {x : String} {v : Value} :
    vars.fetch x = .ok v ↔ vars.fetch? x = some v := by
  unfold fetch
  cases vars.fetch? x <;> simp

end Variables

end IntegerBasic
