import IntegerBasic.Program

/-!
# Lines stored in place

Storing a line, and taking over a line of a file, as actions on a program. An action that fails
leaves behind what it has changed so far; the main statements say that these two do what the
functions say, and have not changed anything when they fail.
-/

namespace IntegerBasic

/-- What an action comes to that does what a function says, and nothing if the function fails. -/
def settled {ε σ α : Type} (s : σ) : Except ε (α × σ) → EStateM.Result ε σ α
  | .ok (a, s') => .ok a s'
  | .error e => .error e s

theorem settled_eq_error_iff {ε σ α : Type} {s s' : σ} {r : Except ε (α × σ)} {e : ε} :
    settled s r = .error e s' ↔ r = .error e ∧ s' = s := by
  cases r with
  | ok r => simp [settled]
  | error f => simp [settled, eq_comm]

namespace Program

def insertInPlace (l : Line) : EStateM Error Program (Option Line) := do
  match l.number with
  | none => throw SyntaxFault.expectedLineNumber.toError
  | some n =>
    if n = 0 then
      throw .numberZero
    else
      match l.statement with
      | .error f => throw f.toError
      | .ok s =>
        let old := ((← get).find? n).map StoredLine.line
        modify fun p => p.put ⟨n, l, s, 0⟩
        pure old

def loadInPlace (s : String) : EStateM Error Program Unit := do
  if Line.fits s then
    let l := Line.ofText s
    if l.isEmpty then
      match l.number with
      | some n => modify fun p => p.erase n
      | none => pure ()
    else if l.isDirect then
      throw .directInFile
    else
      let _ ← insertInPlace l
      pure ()
  else
    throw .lineTooLong

variable (p : Program)

/-- A line that is stored in place is refused before the program is changed. -/
theorem run_insertInPlace (l : Line) : (insertInPlace l).run p = settled p (p.insert l) := by
  rw [insertInPlace, insert]
  cases l.number with
  | none => rfl
  | some n =>
      dsimp only
      by_cases hn : n = 0
      · rw [if_pos hn, if_pos hn]
        rfl
      · rw [if_neg hn, if_neg hn]
        cases l.statement <;> rfl

theorem run_loadInPlace (s : String) :
    (loadInPlace s).run p = settled p ((p.load s).map fun q => ((), q)) := by
  rw [loadInPlace, load]
  by_cases hf : Line.fits s = true
  · rw [if_pos hf, if_pos hf]
    dsimp only
    by_cases he : (Line.ofText s).isEmpty = true
    · rw [if_pos he, if_pos he]
      cases (Line.ofText s).number <;> rfl
    · rw [if_neg he, if_neg he]
      by_cases hd : (Line.ofText s).isDirect = true
      · rw [if_pos hd, if_pos hd]
        rfl
      · rw [if_neg hd, if_neg hd, EStateM.run_bind, run_insertInPlace]
        cases p.insert (Line.ofText s) <;> rfl
  · rw [if_neg hf, if_neg hf]
    rfl

theorem run_loadInPlace_eq_error_iff {p q : Program} {s : String} {e : Error} :
    (loadInPlace s).run p = .error e q ↔ p.load s = .error e ∧ q = p := by
  rw [run_loadInPlace, settled_eq_error_iff]
  cases p.load s <;> simp [Except.map]

end Program

end IntegerBasic
